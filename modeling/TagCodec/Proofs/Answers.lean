import TagCodec.Proofs.Agreement

namespace TagCodec

open Steps

/-- A call of one of the two lookups. -/
inductive Query
  | byClass (c : Class)
  | byTag (t : Tag)
deriving DecidableEq

/-- What a lookup aims at. -/
inductive Target
  | registered (b : Binding)
  /-- The codec for a listed name with `i` others in front of it. -/
  | listed (name : String) (i : Nat)
  | refused (e : LookupError)

namespace Steps

/-- The outcome of a run that leaves this state. -/
def leaving (s : σ) : Except ε α → EStateM.Result ε σ α
  | .ok a => .ok a s
  | .error e => .error e s

/-- What a run comes to, but for the state that it leaves. -/
def result (x : EStateM ε σ α) (s : σ) : Except ε α :=
  match x s with
  | .ok a _ => .ok a
  | .error e _ => .error e

theorem result_of_leaving {x : EStateM ε σ α} (h : x s = leaving t a) : result x s = a := by
  unfold result
  rw [h]
  cases a <;> rfl

theorem after_of_leaving {x : EStateM ε σ α} (h : x s = leaving t a) : after x s = t := by
  unfold after
  rw [h]
  cases a <;> rfl

end Steps

namespace Fallback

/-- What comes of an attempt for a name. -/
def made (b : Fallback) (name : String) : Option Format := (b.construct name).toOption

/-- What a name has in its cell, or would have after an attempt. -/
def settled (b : Fallback) (m : Memo) (name : String) : Option Format :=
  (m.cell? name).getD (b.made name)

theorem settled_fill {m : Memo} (b : Fallback) (empty : m.cell? name = Option.none)
    (events : List Event) : b.settled (m.fill name (b.made name) events) = b.settled m := by
  funext n
  unfold settled
  rw [Memo.cell_fill]
  split
  · rename_i same
    rw [same, empty]
    rfl
  · rfl

/-- An attempt settles nothing anew, as it does what the name was going to come to. -/
theorem settled_get (b : Fallback) (name : String) (t : Tag) (m : Memo) :
    b.settled (after (b.get name t) m) = b.settled m := by
  cases hc : m.cell? name with
  | some cell => rw [after_get_of_filled b t hc]
  | none =>
    rw [after_get_of_empty b t hc]
    exact b.settled_fill hc _

theorem get_eq (b : Fallback) (name : String) (t : Tag) (m : Memo) :
    b.get name t m = answer name (b.settled m name) (after (b.get name t) m) := by
  unfold settled
  cases hc : m.cell? name with
  | some cell =>
    rw [after_get_of_filled b t hc]
    exact get_of_cell b t hc
  | none =>
    rw [after_get_of_empty b t hc]
    exact get_of_empty b t hc

end Fallback

namespace Registry

/-- The same entries, with another resolver and another factory. -/
def under (r : Registry) (b : Fallback) : Registry := { r with fallback := b }

def ask (r : Registry) : Query → Lookup Binding
  | .byClass c => r.resolve c
  | .byTag t => r.resolveTag t

def target (r : Registry) : Query → Target
  | .byClass c =>
    match r.explicitFor? c with
    | some b => .registered b
    | none =>
      if r.allowDefault then
        match r.names.index? c.declaring.name with
        | some i => .listed c.declaring.name i
        | none => .refused (.notListed c.declaring.name)
      else .refused (.fallbackDisabled c.name)
  | .byTag t =>
    match r.place t with
    | .explicit i => (r.explicitAt? i).elim (.refused (.unknownTag t)) .registered
    | .fallback i => (r.names.get? i).elim (.refused (.unknownTag t)) fun name => .listed name i
    | _ => .refused (.unknownTag t)

/-- The lookups that are for a name: by a class that no codec claims, neither itself nor any above
it, and that goes by this name, or by the tag of the name. -/
def Wants (r : Registry) (name : String) : Query → Prop
  | .byClass c => r.explicitFor? c = none ∧ c.declaring.name = name
  | .byTag t => ∃ i, r.names.toList[i]? = some name ∧ t = r.fallbackTag i

/-- Only lookups for a name aim at it, and only if it is listed and the fallback is allowed. -/
theorem listed_of_target {r : Registry} (h : r.target q = .listed name i) :
    r.allowDefault = true ∧ r.names.toList[i]? = some name ∧ r.Wants name q := by
  cases q with
  | byClass c =>
    simp only [target] at h
    split at h
    · cases h
    · rename_i unclaimed
      split at h
      · rename_i allowed
        split at h
        · rename_i found
          cases h
          exact ⟨allowed, Names.get_of_index found, unclaimed, rfl⟩
        · cases h
      · cases h
  | byTag t =>
    cases hp : r.place t with
    | explicit j =>
      simp only [target, hp] at h
      cases he : r.explicitAt? j <;> rw [he] at h <;> cases h
    | fallback j =>
      obtain ⟨allowed, inside, place⟩ : r.Assigns t (.fallback j) := hp ▸ r.assigns_place t
      have listed : r.names.toList[j]? = some r.names.toList[j] := List.getElem?_eq_getElem inside
      have tag : r.fallbackTag j = t := tagAt_of_toInt (by rw [place]; omega)
      simp only [target, hp, Names.get?, listed] at h
      cases h
      exact ⟨allowed, listed, i, listed, tag.symm⟩
    | _ =>
      simp only [target, hp] at h
      cases h

theorem target_of_wants {r : Registry} (allowed : r.allowDefault = true)
    (listed : r.names.toList[i]? = some name) (h : r.Wants name q) :
    r.target q = .listed name i := by
  cases q with
  | byClass c =>
    obtain ⟨unclaimed, rfl⟩ := h
    simp only [target, unclaimed, allowed, if_true, Names.index_of_get listed]
  | byTag t =>
    obtain ⟨j, hj, rfl⟩ := h
    rw [r.names.index_unique hj listed]
    have place := place_fallbackTag allowed (List.getElem?_eq_some_iff.mp listed).1
    simp only [target, place, Names.get?, listed, Option.elim_some]

/-- The answer for a listed name, given what comes of it. -/
def bindingFor (r : Registry) (name : String) (i : Nat) : Option Format → Except LookupError Binding
  | some f => .ok ⟨r.fallbackTag i, f, none⟩
  | none => .error (.constructionFailed name)

/-- The answer of a registry that keeps nothing, given what comes of each name. -/
def answer (r : Registry) (made : String → Option Format) (q : Query) :
    Except LookupError Binding :=
  match r.target q with
  | .registered b => .ok b
  | .listed name i => r.bindingFor name i (made name)
  | .refused e => .error e

/-- All that a lookup can do. Only one for a listed name may touch the memo. -/
theorem ask_of_target (r : Registry) (q : Query) (m : Memo) :
    r.ask q m = match r.target q with
      | .registered b => .ok b m
      | .listed name i => r.fallbackAt name i m
      | .refused e => .error e m := by
  cases q with
  | byClass c =>
    simp only [ask, resolve, target]
    cases r.explicitFor? c with
    | some b => rfl
    | none =>
      cases r.allowDefault with
      | false => rfl
      | true =>
        simp only [if_true, fallbackFor]
        cases r.names.index? c.declaring.name <;> rfl
  | byTag t =>
    simp only [ask, resolveTag, target]
    cases r.place t with
    | explicit i =>
      dsimp only
      cases r.explicitAt? i <;> rfl
    | fallback i =>
      dsimp only
      cases r.names.get? i <;> rfl
    | _ => rfl

theorem fallbackAt_eq (r : Registry) (name : String) (i : Nat) (m : Memo) :
    r.fallbackAt name i m = leaving (after (r.fallback.get name (r.fallbackTag i)) m)
      (r.bindingFor name i (r.fallback.settled m name)) := by
  have got := r.fallback.get_eq name (r.fallbackTag i) m
  cases hs : r.fallback.settled m name with
  | some f =>
    rw [hs] at got
    exact bind_of_ok got
  | none =>
    rw [hs] at got
    exact bind_of_error got

theorem after_ask (r : Registry) (q : Query) (m : Memo) :
    after (r.ask q) m = match r.target q with
      | .listed name i => after (r.fallback.get name (r.fallbackTag i)) m
      | _ => m := by
  unfold after
  rw [ask_of_target]
  cases r.target q with
  | registered b => rfl
  | refused e => rfl
  | listed name i =>
    simp only [fallbackAt_eq]
    cases r.fallback.settled m name <;> rfl

theorem settled_ask (r : Registry) (q : Query) (m : Memo) :
    r.fallback.settled (after (r.ask q) m) = r.fallback.settled m := by
  rw [after_ask]
  split
  · exact r.fallback.settled_get _ _ m
  · rfl

theorem ask_eq (r : Registry) (q : Query) (m : Memo) :
    r.ask q m = leaving (after (r.ask q) m) (r.answer (r.fallback.settled m) q) := by
  rw [after_ask, ask_of_target, answer]
  cases r.target q with
  | registered b => rfl
  | refused e => rfl
  | listed name i => exact r.fallbackAt_eq name i m

/-- The memo after lookups made one by one. -/
def heard (r : Registry) (qs : List Query) (m : Memo) : Memo :=
  qs.foldl (fun m q => after (r.ask q) m) m

theorem heard_append (r : Registry) (qs ps : List Query) (m : Memo) :
    r.heard (qs ++ ps) m = r.heard ps (r.heard qs m) :=
  List.foldl_append

theorem settled_heard (r : Registry) (qs : List Query) (m : Memo) :
    r.fallback.settled (r.heard qs m) = r.fallback.settled m := by
  induction qs generalizing m with
  | nil => rfl
  | cons q qs ih => exact (ih _).trans (r.settled_ask q m)

end Registry

end TagCodec
