import TagCodec.Proofs.Runs

namespace TagCodec

open Steps

namespace Event

/-- The class name that it is about. -/
def about? : Event → Option String
  | built .. => none
  | asked _ cls => some cls
  | called _ cls _ => some cls
  | created cls _ => some cls
  | failed cls _ _ => some cls

def isAsked : Event → Bool
  | asked .. => true
  | _ => false

def isCalled : Event → Bool
  | called .. => true
  | _ => false

end Event

namespace Memo

/-- The events about a name, the first one first. -/
def events (m : Memo) (name : String) : List Event :=
  m.trace.filter fun e => e.about? == some name

theorem events_fill (m : Memo) (name other : String) (cell : Option Format) (es : List Event) :
    (m.fill name cell es).events other =
      m.events other ++ es.filter fun e => e.about? == some other := by
  simp only [events, fill, List.filter_append]

/-- Nothing was done for the name from the first memo to the second. -/
structure Unmoved (name : String) (m n : Memo) : Prop where
  cell : n.cell? name = m.cell? name
  events : n.events name = m.events name

theorem Unmoved.refl (name : String) (m : Memo) : Unmoved name m m := ⟨rfl, rfl⟩

theorem Unmoved.trans {m n k : Memo} (h : Unmoved name m n) (g : Unmoved name n k) :
    Unmoved name m k :=
  ⟨g.cell.trans h.cell, g.events.trans h.events⟩

/-- Nothing was done for the name so far. -/
structure Untouched (m : Memo) (name : String) : Prop where
  cell : m.cell? name = none
  events : m.events name = []

theorem Unmoved.untouched {m n : Memo} (h : Unmoved name m n) (untouched : m.Untouched name) :
    n.Untouched name :=
  ⟨h.cell.trans untouched.cell, h.events.trans untouched.events⟩

/-- All that was done for the name is one attempt, and its cell holds what that came to. -/
structure Tried (m : Memo) (b : Fallback) (name : String) (t : Tag) : Prop where
  cell : m.cell? name = some (b.made name)
  events : m.events name = b.eventsOf name t

theorem Unmoved.tried {m n : Memo} (h : Unmoved name m n) (tried : m.Tried b name t) :
    n.Tried b name t :=
  ⟨h.cell.trans tried.cell, h.events.trans tried.events⟩

theorem Tried.filled {m : Memo} (h : m.Tried b name t) : (m.cell? name).isSome := by
  rw [h.cell]
  rfl

end Memo

namespace Fallback

/-- What one attempt at a codec under the tag `t` does: it asks the resolver, calls the factory if
a class was found, the way that suits the class, and leaves one line in the log. -/
structure Attempt (b : Fallback) (name : String) (t : Tag) (es : List Event) : Prop where
  asked : es.filter Event.isAsked = [.asked b.resolver.counter name]
  called : ∀ c, b.resolver.find name = .ok c → ∃ asEnumeration,
    es.filter Event.isCalled = [.called b.factory.counter name asEnumeration] ∧
    (asEnumeration = true ↔ ∃ e, c.kind = .enumeration e) ∧
    b.construct name =
      if asEnumeration then b.factory.forEnumeration c else b.factory.forRecord c
  notCalled : ∀ e, b.resolver.find name = .error e →
    es.filter Event.isCalled = [] ∧ b.construct name = .error e
  logged : Event.logLines es =
    match b.construct name with
    | .ok _ => [⟨.debug, "constructed fallback codec", [("class", name), ("tag", t.text)]⟩]
    | .error e => [⟨.warning, "could not create fallback codec",
        [("class", name), ("tag", t.text), ("error", e.message)]⟩]

theorem eventsOf_about (b : Fallback) (name other : String) (t : Tag) :
    ((b.eventsOf name t).filter fun e => e.about? == some other) =
      if other = name then b.eventsOf name t else [] := by
  have about : ∀ e ∈ b.eventsOf name t, e.about? = some name := by
    cases found : b.resolver.find name with
    | ok c =>
      rw [eventsOf_of_found found]
      cases b.factory.make c <;> simp [Event.outcome, Event.about?]
    | error e => simp [eventsOf_of_missing found, Event.about?]
  split
  · rename_i same
    rw [List.filter_eq_self]
    intro e he
    rw [about e he, same, beq_self_eq_true]
  · rename_i different
    rw [List.filter_eq_nil_iff]
    intro e he
    rw [about e he, beq_iff_eq, Option.some.injEq]
    exact fun same => different same.symm

theorem attempt_eventsOf (b : Fallback) (name : String) (t : Tag) :
    b.Attempt name t (b.eventsOf name t) where
  asked := by
    cases found : b.resolver.find name with
    | ok c =>
      rw [eventsOf_of_found found]
      cases b.factory.make c <;> rfl
    | error e =>
      rw [eventsOf_of_missing found]
      rfl
  called c found := by
    refine ⟨c.enumeration?.isSome, ?_, ?_, ?_⟩
    · rw [eventsOf_of_found found]
      cases b.factory.make c <;> rfl
    · unfold Class.enumeration?
      cases c.kind <;> simp
    · rw [construct_of_found found, Factory.make_eq]
  notCalled e missing := by
    refine ⟨?_, construct_of_missing missing⟩
    rw [eventsOf_of_missing missing]
    rfl
  logged := by
    cases found : b.resolver.find name with
    | ok c =>
      rw [eventsOf_of_found found, construct_of_found found]
      cases b.factory.make c <;> rfl
    | error e =>
      rw [eventsOf_of_missing found, construct_of_missing found]
      rfl

end Fallback

namespace Registry

/-- A lookup leaves a name alone that it does not aim at, and one whose cell is filled. -/
theorem ask_unmoved (r : Registry) {m : Memo}
    (h : (m.cell? name).isSome ∨ ∀ i, r.target q ≠ .listed name i) :
    Memo.Unmoved name m (after (r.ask q) m) := by
  rw [after_ask]
  cases hq : r.target q with
  | listed other i =>
    dsimp only
    cases hc : m.cell? other with
    | some cell =>
      rw [r.fallback.after_get_of_filled _ hc]
      exact .refl name m
    | none =>
      have different : name ≠ other := by
        rintro rfl
        rcases h with filled | aside
        · rw [hc] at filled
          cases filled
        · exact aside i hq
      rw [r.fallback.after_get_of_empty _ hc]
      refine ⟨?_, ?_⟩
      · rw [Memo.cell_fill, if_neg different]
      · rw [Memo.events_fill, r.fallback.eventsOf_about, if_neg different, List.append_nil]
  | _ => exact .refl name m

theorem ask_first {r : Registry} {m : Memo} (untouched : m.Untouched name)
    (aims : r.target q = .listed name i) :
    (after (r.ask q) m).Tried r.fallback name (r.fallbackTag i) := by
  rw [after_ask, aims]
  dsimp only
  rw [r.fallback.after_get_of_empty _ untouched.cell]
  refine ⟨?_, ?_⟩
  · rw [Memo.cell_fill, if_pos rfl]
    rfl
  · rw [Memo.events_fill, untouched.events, r.fallback.eventsOf_about, if_pos rfl]
    rfl

theorem heard_unmoved (r : Registry) {m : Memo}
    (h : (m.cell? name).isSome ∨ ∀ q ∈ qs, ∀ i, r.target q ≠ .listed name i) :
    Memo.Unmoved name m (r.heard qs m) := by
  induction qs generalizing m with
  | nil => exact .refl name m
  | cons q qs ih =>
    have first := r.ask_unmoved (h.imp_right fun aside => aside q List.mem_cons_self)
    refine first.trans (ih ?_)
    rw [first.cell]
    exact h.imp_right fun aside p hp => aside p (List.mem_cons_of_mem q hp)

theorem heard_first {r : Registry} {m : Memo} (untouched : m.Untouched name) (made : q ∈ qs)
    (aims : r.target q = .listed name i) :
    (r.heard qs m).Tried r.fallback name (r.fallbackTag i) := by
  -- a lookup that aims at the name ends the search, any other leaves the name untouched
  induction qs generalizing m with
  | nil => cases made
  | cons p qs ih =>
    by_cases first : ∃ j, r.target p = .listed name j
    · obtain ⟨j, hj⟩ := first
      rw [r.names.index_unique (listed_of_target aims).2.1 (listed_of_target hj).2.1]
      have tried := ask_first untouched hj
      exact (r.heard_unmoved (.inl tried.filled)).tried tried
    · have aside : ∀ j, r.target p ≠ .listed name j := fun j hj => first ⟨j, hj⟩
      rcases List.mem_cons.mp made with rfl | later
      · exact absurd aims (aside i)
      · exact ih ((r.ask_unmoved (.inr aside)).untouched untouched) later

/-- The lookups of a turn. -/
def callsIn (r : Registry) (x : Turn) (m : Memo) : List Query :=
  (r.under x.fallback).calls (x.fallback.settled m) x.operation

/-- The lookups of a run. -/
def callsOf (r : Registry) : List Turn → Memo → List Query
  | [], _ => []
  | x :: xs, m => r.callsIn x m ++ r.callsOf xs (r.play x m).2

theorem play_heard (r : Registry) (x : Turn) (m : Memo) :
    (r.play x m).2 = (r.under x.fallback).heard (r.callsIn x m) m :=
  congrArg Prod.snd ((r.under x.fallback).perform_eq x.operation m)

theorem run_unmoved (r : Registry) {m : Memo}
    (h : (m.cell? name).isSome ∨ ∀ q ∈ r.callsOf xs m, ∀ i, r.target q ≠ .listed name i) :
    Memo.Unmoved name m (r.run xs m).2 := by
  induction xs generalizing m with
  | nil => exact .refl name m
  | cons x xs ih =>
    have first : Memo.Unmoved name m (r.play x m).2 := by
      rw [play_heard]
      exact (r.under x.fallback).heard_unmoved
        (h.imp_right fun aside q hq => aside q (List.mem_append_left _ hq))
    refine first.trans (ih ?_)
    rw [first.cell]
    exact h.imp_right fun aside q hq => aside q (List.mem_append_right _ hq)

/-- The turn in which a lookup is for the name, and none was before. -/
structure FirstTurn (r : Registry) (name : String) (xs : List Turn) (m : Memo)
    (before : List Turn) (x : Turn) : Prop where
  within : ∃ later, xs = before ++ x :: later
  noneBefore : ∀ q ∈ r.callsOf before m, ¬ r.Wants name q
  wanted : ∃ q ∈ r.callsIn x (r.run before m).2, r.Wants name q

theorem exists_firstTurn {r : Registry} (made : q ∈ r.callsOf xs m) (wants : r.Wants name q) :
    ∃ before x, r.FirstTurn name xs m before x := by
  induction xs generalizing m with
  | nil => cases made
  | cons x xs ih =>
    by_cases first : ∃ p ∈ r.callsIn x m, r.Wants name p
    · exact ⟨[], x, ⟨xs, rfl⟩, fun p hp => absurd hp List.not_mem_nil, first⟩
    · have aside : ∀ p ∈ r.callsIn x m, ¬ r.Wants name p := fun p hp hw => first ⟨p, hp, hw⟩
      rcases List.mem_append.mp made with here | later
      · exact absurd wants (aside q here)
      · obtain ⟨before, y, ⟨rest, rfl⟩, noneBefore, wanted⟩ := ih later
        refine ⟨x :: before, y, ⟨rest, rfl⟩, fun p hp => ?_, wanted⟩
        rcases List.mem_append.mp hp with hp | hp
        · exact aside p hp
        · exact noneBefore p hp

theorem untouched_start (r : Registry) (name : String) : r.start.Untouched name := ⟨rfl, rfl⟩

/-- What the first turn with a lookup for the name tried is all that was ever done for it. -/
theorem FirstTurn.tried {r : Registry} {m : Memo} (h : r.FirstTurn name xs m before x)
    (untouched : m.Untouched name) (allowed : r.allowDefault = true)
    (listed : r.names.toList[i]? = some name) :
    (r.run xs m).2.Tried x.fallback name (r.fallbackTag i) := by
  obtain ⟨⟨later, rfl⟩, noneBefore, q, made, wants⟩ := h
  -- the turn finds the name untouched, makes the attempt, and nothing behind it adds to that
  have still : (r.run before m).2.Untouched name :=
    (r.run_unmoved (.inr fun p hp j hj =>
      noneBefore p hp (listed_of_target hj).2.2)).untouched untouched
  have tried : (r.play x (r.run before m).2).2.Tried x.fallback name (r.fallbackTag i) := by
    rw [play_heard]
    exact heard_first (r := r.under x.fallback) still made (target_of_wants allowed listed wants)
  rw [run_append]
  exact (r.run_unmoved (.inl tried.filled)).tried tried

/-- A name that was tried is answered from its cell, whatever resolver and factory say now. -/
theorem ask_of_tried {r : Registry} {m : Memo} (h : m.Tried b name t) (c : Fallback)
    (aims : r.target q = .listed name i) :
    (r.under c).ask q m = leaving m (r.bindingFor name i (b.made name)) := by
  have aims : (r.under c).target q = .listed name i := aims
  have same : after ((r.under c).ask q) m = m := by
    rw [after_ask, aims]
    exact c.after_get_of_filled _ h.cell
  have found : (r.under c).fallback.settled m name = b.made name := by
    unfold Fallback.settled
    rw [h.cell]
    rfl
  rw [ask_eq, same, answer, aims]
  dsimp only
  rw [found]
  rfl

/-- A name that may get a codec, and that some lookup of the run was for. -/
structure Wanted (r : Registry) (name : String) (xs : List Turn) : Prop where
  allowed : r.allowDefault = true
  listed : name ∈ r.names.toList
  made : ∃ q ∈ r.callsOf xs r.start, r.Wants name q

theorem untouched_of_not_wanted {r : Registry} (h : ¬ r.Wanted name xs) :
    (r.run xs r.start).2.Untouched name := by
  refine (r.run_unmoved (.inr fun q hq i hi => h ?_)).untouched (r.untouched_start name)
  obtain ⟨allowed, listed, wants⟩ := listed_of_target hi
  exact ⟨allowed, List.mem_of_getElem? listed, q, hq, wants⟩

/-- The resolver is asked for a name at most once in a run, and it is asked if and only if some
lookup is for the name and the name may get a codec. Then the first turn with such a lookup makes
one attempt, nothing else is done for the name, and all later lookups for it answer what the attempt
came to, under the tag that the name has had from the start. -/
theorem constructed_once (r : Registry) (xs : List Turn) (name : String) :
    ((r.run xs r.start).2.events name).countP Event.isAsked ≤ 1 ∧
    (((r.run xs r.start).2.events name).countP Event.isAsked = 1 ↔ r.Wanted name xs) ∧
    (¬ r.Wanted name xs → (r.run xs r.start).2.events name = []) ∧
    (r.Wanted name xs → ∃ i before x, r.names.toList[i]? = some name ∧
      r.FirstTurn name xs r.start before x ∧
      x.fallback.Attempt name (r.fallbackTag i) ((r.run xs r.start).2.events name) ∧
      ∀ later b q, r.Wants name q →
        (r.under b).ask q (r.run later (r.run xs r.start).2).2 =
          leaving (r.run later (r.run xs r.start).2).2
            (r.bindingFor name i (x.fallback.made name))) := by
  have whenWanted (h : r.Wanted name xs) : ∃ i before x, r.names.toList[i]? = some name ∧
      r.FirstTurn name xs r.start before x ∧
      (r.run xs r.start).2.Tried x.fallback name (r.fallbackTag i) := by
    obtain ⟨i, listed⟩ := List.mem_iff_getElem?.mp h.listed
    obtain ⟨q, made, wants⟩ := h.made
    obtain ⟨before, x, first⟩ := exists_firstTurn made wants
    exact ⟨i, before, x, listed, first, first.tried (r.untouched_start name) h.allowed listed⟩
  have asked (h : r.Wanted name xs) :
      ((r.run xs r.start).2.events name).countP Event.isAsked = 1 := by
    obtain ⟨i, _, x, _, _, tried⟩ := whenWanted h
    rw [tried.events, List.countP_eq_length_filter, (x.fallback.attempt_eventsOf name _).asked]
    rfl
  have notAsked (h : ¬ r.Wanted name xs) :
      ((r.run xs r.start).2.events name).countP Event.isAsked = 0 := by
    rw [(untouched_of_not_wanted h).events]
    rfl
  refine ⟨?_, ⟨fun once => ?_, asked⟩, fun h => (untouched_of_not_wanted h).events, fun h => ?_⟩
  · by_cases h : r.Wanted name xs
    · exact Nat.le_of_eq (asked h)
    · rw [notAsked h]
      exact Nat.zero_le 1
  · refine Classical.byContradiction fun h => ?_
    rw [notAsked h] at once
    cases once
  · obtain ⟨i, before, x, listed, first, tried⟩ := whenWanted h
    refine ⟨i, before, x, listed, first, ?_, fun later b q wants => ?_⟩
    · rw [tried.events]
      exact x.fallback.attempt_eventsOf name _
    · have still : (r.run later (r.run xs r.start).2).2.Tried x.fallback name (r.fallbackTag i) :=
        (r.run_unmoved (.inl tried.filled)).tried tried
      exact ask_of_tried still b (target_of_wants h.allowed listed wants)

/-- A resolver that finds the class comes too late for a name that was tried without it. -/
example : ∃ r, (Draft.empty.addName "demo.shapes.Circle").build = .ok r ∧
    (r.run [⟨.none, .lookup (.byTag ⟨1⟩)⟩,
        ⟨⟨.ofClassPath Catalog.classPath, .standard⟩, .lookup (.byClass Catalog.circle)⟩]
      r.start).1 = [.found (.error (.constructionFailed "demo.shapes.Circle")),
        .found (.error (.constructionFailed "demo.shapes.Circle"))] :=
  ⟨_, rfl, rfl⟩

end Registry

end TagCodec
