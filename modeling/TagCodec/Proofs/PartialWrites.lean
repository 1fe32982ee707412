import TagCodec.Proofs.Lockstep
import TagCodec.Proofs.Transfer
import TagCodec.Proofs.Writers

namespace TagCodec

open Steps

namespace Registry

/-- The values that a write comes to, a pair in front of its sides. What is in a constant is not
looked at. -/
def visited (r : Registry) : Value → List Value
  | .null => [.null]
  | .leaf addr x => [.leaf addr x]
  | .pair addr left right =>
    .pair addr left right ::
      match r.constantTag? (.pair addr left right) with
      | some _ => []
      | none => r.visited left ++ r.visited right

/-- The value has to go through a codec, and the lookup for its class fails. -/
def Refuses (r : Registry) (m : Memo) (v : Value) (e : LookupError) : Prop :=
  r.constantTag? v = none ∧ ∃ c, v.cls? = some c ∧ result (r.resolve c) m = .error e

/-- What is written for a value itself: a tag, and behind it what is not a value again. -/
def own (r : Registry) (m : Memo) (v : Value) : Payload :=
  match v.cls?, r.constantTag? v with
  | none, _ => .complete [.tag .null]
  | some _, some t => .complete [.tag t]
  | some c, none =>
    match result (r.resolve c) m, v with
    | .error e, _ => ⟨[], some (.noCodec e)⟩
    | .ok b, .leaf _ x => Payload.followedBy (.complete [.tag b.tag]) (b.format.payload x)
    | .ok b, _ => .complete [.tag b.tag]

/-- The bytes that are written for a value itself. -/
def ownBytes (r : Registry) (m : Memo) (v : Value) : List UInt8 :=
  (r.own m v).items.flatMap Item.encode

/-- What is written for values one after the other, until one is refused. -/
def puts (r : Registry) (m : Memo) (vs : List Value) : Payload :=
  vs.foldr (fun v p => (r.own m v).followedBy p) (.complete [])

variable {r : Registry} {m : Memo}

theorem puts_append (us vs : List Value) :
    r.puts m (us ++ vs) = (r.puts m us).followedBy (r.puts m vs) := by
  induction us with
  | nil => rfl
  | cons u us ih =>
    change (r.own m u).followedBy (r.puts m (us ++ vs)) = _
    rw [ih, ← Payload.followedBy_assoc]
    rfl

theorem puts_of_complete {vs : List Value}
    (complete : ∀ v ∈ vs, ∃ items, r.own m v = .complete items) :
    r.puts m vs = .complete (vs.flatMap fun v => (r.own m v).items) := by
  induction vs with
  | nil => rfl
  | cons v vs ih =>
    obtain ⟨items, whole⟩ := complete v List.mem_cons_self
    have rest := ih fun u hu => complete u (List.mem_cons_of_mem v hu)
    change (r.own m v).followedBy (r.puts m vs) = _
    rw [rest, List.flatMap_cons, whole]
    rfl

theorem puts_of_refused {before rest : List Value}
    (complete : ∀ v ∈ before, ∃ items, r.own m v = .complete items)
    (refused : r.own m v = ⟨[], some e⟩) :
    r.puts m (before ++ v :: rest) =
      ⟨before.flatMap fun v => (r.own m v).items, some e⟩ := by
  have fault : r.puts m (v :: rest) = ⟨[], some e⟩ := by
    change (r.own m v).followedBy (r.puts m rest) = _
    rw [refused]
    rfl
  rw [puts_append, puts_of_complete complete, fault]
  simp [Payload.followedBy, Payload.complete]

theorem own_of_constant {v : Value} (object : v.cls? = some c)
    (registered : r.constantTag? v = some t) : r.own m v = .complete [.tag t] := by
  simp only [own, object, registered]

/-- What is told of a write is what its values put out, one after the other. -/
theorem toPayload_transcript (ordinary : r.Ordinary) (reached : r.Leads r.start m) (v : Value) :
    (r.transcript r.fallback.made v).toPayload = r.puts m (r.visited v) := by
  induction v with
  | null => rfl
  | leaf addr x =>
    change _ = (r.own m (.leaf addr x)).followedBy (.complete [])
    rw [Payload.followedBy_empty]
    unfold transcript
    cases registered : r.constantTag? (.leaf addr x) with
    | some t => exact (own_of_constant rfl registered).symm
    | none =>
      simp only [toPayload_coded, own, Value.cls?, registered, reached.result_resolve]
      cases r.answer r.fallback.made (.byClass x.cls) <;> rfl
  | pair addr left right ihl ihr =>
    unfold transcript visited
    cases registered : r.constantTag? (.pair addr left right) with
    | some t =>
      change _ = (r.own m (.pair addr left right)).followedBy (.complete [])
      rw [Payload.followedBy_empty, own_of_constant rfl registered]
      rfl
    | none =>
      change _ = (r.own m (.pair addr left right)).followedBy (r.puts m (_ ++ _))
      rw [toPayload_coded, puts_append, ← ihl, ← ihr]
      simp only [own, Value.cls?, registered, reached.result_resolve]
      cases answered : r.answer r.fallback.made (.byClass Catalog.pair) with
      | error e => rfl
      | ok b =>
        -- any other codec would fail behind the tag
        simp only [pair_of_answer ordinary answered, Format.pairTranscript,
          Transcript.toPayload_followedBy]

theorem allCoded_of_visited {P : Leaf → Prop} {v : Value} (all : r.AllCoded P v)
    (visited : n ∈ r.visited v) : r.AllCoded P n := by
  induction v with
  | null =>
    cases List.mem_singleton.mp visited
    exact all
  | leaf addr x =>
    cases List.mem_singleton.mp visited
    exact all
  | pair addr left right ihl ihr =>
    rcases List.mem_cons.mp visited with rfl | inside
    · exact all
    · cases registered : r.constantTag? (.pair addr left right) with
      | some t =>
        rw [registered] at inside
        cases inside
      | none =>
        rw [registered] at inside
        rcases List.mem_append.mp inside with first | second
        · exact ihl (all registered).1 first
        · exact ihr (all registered).2 second

theorem own_of_refuses {v : Value} (refused : r.Refuses m v e) :
    r.own m v = ⟨[], some (.noCodec e)⟩ := by
  obtain ⟨other, c, object, failed⟩ := refused
  simp only [own, object, other, failed]

theorem own_of_found (ordinary : r.Ordinary) (reached : r.Leads r.start m) {v : Value}
    (known : r.AllCoded Leaf.InCatalog v) (object : v.cls? = some c)
    (other : r.constantTag? v = none) (found : result (r.resolve c) m = .ok b) :
    ∃ items, r.own m v = .complete items := by
  cases v with
  | null => cases object
  | leaf addr x =>
    cases object
    have answered := (reached.result_resolve x.cls).symm.trans found
    obtain ⟨items, fits⟩ := fits_of_answer ordinary (known other) answered
    refine ⟨.tag b.tag :: items, ?_⟩
    simp only [own, Value.cls?, other, found, Format.payload_of_fits fits]
    rfl
  | pair addr left right =>
    cases object
    refine ⟨[.tag b.tag], ?_⟩
    simp only [own, Value.cls?, other, found]

/-- A value of the catalog that is not refused is written in full. -/
theorem own_of_accepted (ordinary : r.Ordinary) (reached : r.Leads r.start m) {v : Value}
    (known : r.AllCoded Leaf.InCatalog v) (accepted : ∀ e, ¬ r.Refuses m v e) :
    ∃ items, r.own m v = .complete items := by
  cases object : v.cls? with
  | none => exact ⟨[.tag .null], by simp only [own, object]⟩
  | some c =>
    cases registered : r.constantTag? v with
    | some t => exact ⟨_, own_of_constant object registered⟩
    | none =>
      cases found : result (r.resolve c) m with
      | error e => exact absurd ⟨registered, c, object, found⟩ (accepted e)
      | ok b => exact own_of_found ordinary reached known object registered found

/-- If not all values of a list are found a codec for, there is a first one that is refused. -/
theorem exists_first_refused (r : Registry) (m : Memo) (vs : List Value) :
    (∀ v ∈ vs, ∀ e, ¬ r.Refuses m v e) ∨
      ∃ before v rest e, vs = before ++ v :: rest ∧
        (∀ k ∈ before, ∀ x, ¬ r.Refuses m k x) ∧ r.Refuses m v e := by
  induction vs with
  | nil => exact .inl nofun
  | cons u vs ih =>
    by_cases refused : ∃ e, r.Refuses m u e
    · obtain ⟨e, refused⟩ := refused
      exact .inr ⟨[], u, vs, e, rfl, nofun, refused⟩
    · have fine : ∀ e, ¬ r.Refuses m u e := fun e h => refused ⟨e, h⟩
      rcases ih with none | ⟨before, v, rest, e, split, missing, first⟩
      · exact .inl (List.forall_mem_cons.mpr ⟨fine, none⟩)
      · refine .inr ⟨u :: before, v, rest, e, congrArg (u :: ·) split, ?_, first⟩
        exact List.forall_mem_cons.mpr ⟨fine, missing⟩

theorem flatMap_own (vs : List Value) :
    (vs.flatMap fun v => (r.own m v).items).flatMap Item.encode = vs.flatMap (r.ownBytes m) :=
  List.flatMap_assoc

section

variable (ordinary : r.Ordinary) (reached : r.Leads r.start m) {v : Value}
  (known : r.AllCoded Leaf.InCatalog v)

include ordinary reached known

theorem toPayload_of_unrefused (fine : ∀ n ∈ r.visited v, ∀ e, ¬ r.Refuses m n e) :
    (r.transcript r.fallback.made v).toPayload =
      .complete ((r.visited v).flatMap fun n => (r.own m n).items) := by
  rw [toPayload_transcript ordinary reached]
  refine puts_of_complete fun n hn => ?_
  exact own_of_accepted ordinary reached (allCoded_of_visited known hn) (fine n hn)

theorem write_of_unrefused (fine : ∀ n ∈ r.visited v, ∀ e, ¬ r.Refuses m n e) (out : Output) :
    ∃ s, r.write v ⟨out, m⟩ = .ok () s ∧
      s.out.toList = out.toList ++ (r.visited v).flatMap (r.ownBytes m) := by
  rw [← flatMap_own]
  exact write_of_complete reached (toPayload_of_unrefused ordinary reached known fine) out

theorem encode_of_unrefused (fine : ∀ n ∈ r.visited v, ∀ e, ¬ r.Refuses m n e) :
    ∃ m', r.encode v m = .ok ((r.visited v).flatMap (r.ownBytes m)) m' := by
  rw [← flatMap_own]
  exact encode_of_complete reached (toPayload_of_unrefused ordinary reached known fine)

theorem write_of_refused (split : r.visited v = before ++ n :: rest)
    (fine : ∀ k ∈ before, ∀ x, ¬ r.Refuses m k x) (refused : r.Refuses m n e) (out : Output) :
    ∃ s, r.write v ⟨out, m⟩ = .error (.noCodec e) s ∧
      s.out.toList = out.toList ++ before.flatMap (r.ownBytes m) := by
  have complete : ∀ k ∈ before, ∃ items, r.own m k = .complete items := by
    intro k hk
    have inside : k ∈ r.visited v := split ▸ List.mem_append_left _ hk
    exact own_of_accepted ordinary reached (allCoded_of_visited known inside) (fine k hk)
  have told := toPayload_transcript ordinary reached v
  rw [split, puts_of_refused complete (own_of_refuses refused)] at told
  rw [← flatMap_own]
  exact write_of_fault reached told out

end

/-- A write fails if one of the values that it comes to is refused, and then for the reason of the
first such value. What the values in front of that one put out has then been written, and nothing
else. Of a value that a write comes to the end of this is its whole encoding. -/
theorem write_until_refused {d : Draft} (ordinary : d.Ordinary) (built : d.build = .ok r)
    (reached : r.Leads r.start m) {v : Value} (known : r.AllCoded Leaf.InCatalog v)
    (out : Output) :
    ((∃ e s, r.write v ⟨out, m⟩ = .error e s) ↔ ∃ n ∈ r.visited v, ∃ e, r.Refuses m n e) ∧
    (∀ before n rest e, r.visited v = before ++ n :: rest →
      (∀ k ∈ before, ∀ x, ¬ r.Refuses m k x) → r.Refuses m n e →
      ∃ s, r.write v ⟨out, m⟩ = .error (.noCodec e) s ∧
        s.out.toList = out.toList ++ before.flatMap (r.ownBytes m)) ∧
    ((∀ n ∈ r.visited v, ∀ e, ¬ r.Refuses m n e) →
      ∃ s, r.write v ⟨out, m⟩ = .ok () s ∧
        s.out.toList = out.toList ++ (r.visited v).flatMap (r.ownBytes m)) ∧
    (∀ w ∈ r.visited v, (∀ n ∈ r.visited w, ∀ e, ¬ r.Refuses m n e) →
      ∃ m', r.encode w m = .ok ((r.visited w).flatMap (r.ownBytes m)) m') := by
  have ordinary := ordinary.build built
  refine ⟨⟨?_, ?_⟩, ?_, ?_, ?_⟩
  · rintro ⟨e, s, failed⟩
    rcases r.exists_first_refused m (r.visited v) with fine | ⟨before, n, rest, x, split, _, first⟩
    · obtain ⟨s', written, _⟩ := write_of_unrefused ordinary reached known fine out
      rw [failed] at written
      cases written
    · exact ⟨n, by simp [split], x, first⟩
  · rintro ⟨n, inside, e, refused⟩
    rcases r.exists_first_refused m (r.visited v) with
      fine | ⟨before, k, rest, x, split, fine, first⟩
    · exact absurd refused (fine n inside e)
    · obtain ⟨s, failed, _⟩ := write_of_refused ordinary reached known split fine first out
      exact ⟨_, s, failed⟩
  · intro before n rest e split fine refused
    exact write_of_refused ordinary reached known split fine refused out
  · intro fine
    exact write_of_unrefused ordinary reached known fine out
  · intro w inside fine
    exact encode_of_unrefused ordinary reached (allCoded_of_visited known inside) fine

/-- Codecs for points, labels and pairs. -/
def geometry : Draft :=
  (((Draft.empty.addCodec ⟨1, .point⟩).addCodec ⟨2, .label⟩).addCodec ⟨3, .pair⟩).withResolver
    (.ofClassPath Catalog.classPath)

/-- A holder on the right, behind a point and a label. -/
def holderLast : Value :=
  .pair 4 (.leaf 5 (.point ⟨1, -1⟩)) (.pair 6 (.leaf 7 (.label "on")) (.leaf 8 (.holder ⟨0, 0⟩)))

theorem holder_refused :
    ∃ r s, geometry.build = .ok r ∧
      r.write holderLast ⟨⟨#[9]⟩, r.start⟩ = .error (.noCodec (.notListed "demo.Holder")) s ∧
      s.out.toList = [9, 2, 4, 2, 1, 2, 6, 2, 111, 110] := by
  obtain ⟨r, built⟩ : ∃ r, geometry.build = .ok r := ⟨_, rfl⟩
  have ordinary : geometry.Ordinary := ⟨by decide, rfl⟩
  have known : r.AllCoded Leaf.InCatalog holderLast :=
    fun _ => ⟨fun _ => trivial, fun _ => ⟨fun _ => trivial, fun _ => trivial⟩⟩
  have stops := (write_until_refused ordinary built .start known ⟨#[9]⟩).2.1
  obtain ⟨before, hb⟩ : ∃ before, before = [holderLast, .leaf 5 (.point ⟨1, -1⟩),
    .pair 6 (.leaf 7 (.label "on")) (.leaf 8 (.holder ⟨0, 0⟩)), .leaf 7 (.label "on")] := ⟨_, rfl⟩
  have fine : ∀ k ∈ before, ∀ x, ¬ r.Refuses r.start k x := by
    intro k hk x refused
    have faultless : ∀ k ∈ before, (r.own r.start k).fault? = none := by
      cases built
      subst hb
      decide
    have fault := faultless k hk
    rw [own_of_refuses refused] at fault
    cases fault
  have split : r.visited holderLast = before ++ .leaf 8 (.holder ⟨0, 0⟩) :: [] := by
    cases built
    subst hb
    rfl
  obtain ⟨s, failed, out⟩ := stops before _ _ (.notListed "demo.Holder") split fine (by
    cases built
    exact ⟨rfl, _, rfl, rfl⟩)
  refine ⟨r, s, built, failed, out.trans ?_⟩
  cases built
  subst hb
  decide +kernel

end Registry

end TagCodec
