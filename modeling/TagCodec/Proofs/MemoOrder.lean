import TagCodec.Proofs.Runs

namespace TagCodec

open Steps

/-- The same cells, filled in another order perhaps. -/
structure Memo.Alike (m n : Memo) : Prop where
  cells : ∀ name, m.cell? name = n.cell? name
  trace : m.trace.Perm n.trace

namespace Memo.Alike

theorem refl (m : Memo) : m.Alike m := ⟨fun _ => rfl, .refl _⟩

theorem trans {m n k : Memo} (h : m.Alike n) (g : n.Alike k) : m.Alike k :=
  ⟨fun name => (h.cells name).trans (g.cells name), h.trace.trans g.trace⟩

theorem fill {m n : Memo} (h : m.Alike n) (name : String) (cell : Option Format)
    (events : List Event) : (m.fill name cell events).Alike (n.fill name cell events) where
  cells other := by rw [cell_fill, cell_fill, h.cells other]
  trace := h.trace.append_right events

theorem fill_comm (m : Memo) {name other : String} (different : name ≠ other)
    (cell cell' : Option Format) (events events' : List Event) :
    ((m.fill name cell events).fill other cell' events').Alike
      ((m.fill other cell' events').fill name cell events) where
  cells n := by
    simp only [cell_fill]
    by_cases h : n = name
    · subst h
      rw [if_neg different, if_pos rfl, if_pos rfl]
    · rw [if_neg h, if_neg h]
  trace := by
    simp only [Memo.fill, List.append_assoc]
    exact List.perm_append_comm.append_left m.trace

end Memo.Alike

namespace Fallback

theorem after_get_alike (b : Fallback) (name : String) (t : Tag) {m n : Memo} (h : m.Alike n) :
    (after (b.get name t) m).Alike (after (b.get name t) n) := by
  cases hc : m.cell? name with
  | some cell =>
    rw [after_get_of_filled b t hc, after_get_of_filled b t (h.cells name ▸ hc)]
    exact h
  | none =>
    rw [after_get_of_empty b t hc, after_get_of_empty b t (h.cells name ▸ hc)]
    exact h.fill _ _ _

theorem cell_after_get (b : Fallback) (name : String) (t : Tag) (m : Memo) (other : String) :
    (after (b.get name t) m).cell? other =
      if other = name then some (b.settled m name) else m.cell? other := by
  unfold settled
  cases hc : m.cell? name with
  | some cell =>
    rw [after_get_of_filled b t hc]
    split
    · rename_i same
      rw [same, hc]
      rfl
    · rfl
  | none =>
    rw [after_get_of_empty b t hc, Memo.cell_fill]
    rfl

theorem after_get_comm (b : Fallback) {name other : String} (different : name ≠ other)
    (t u : Tag) (m : Memo) :
    (after (b.get other u) (after (b.get name t) m)).Alike
      (after (b.get name t) (after (b.get other u) m)) := by
  have keptOther := b.cell_after_get name t m other
  have keptName := b.cell_after_get other u m name
  rw [if_neg different.symm] at keptOther
  rw [if_neg different] at keptName
  cases hn : m.cell? name with
  | some cell =>
    rw [hn] at keptName
    rw [after_get_of_filled b t hn, after_get_of_filled b t keptName]
    exact .refl _
  | none =>
    rw [hn] at keptName
    cases ho : m.cell? other with
    | some cell =>
      rw [ho] at keptOther
      rw [after_get_of_filled b u ho, after_get_of_filled b u keptOther]
      exact .refl _
    | none =>
      -- both attempts are made, and each fills its own cell
      rw [ho] at keptOther
      rw [after_get_of_empty b u keptOther, after_get_of_empty b t keptName,
        after_get_of_empty b t hn, after_get_of_empty b u ho]
      exact .fill_comm m different _ _ _ _

end Fallback

namespace Registry

theorem ask_alike (r : Registry) (q : Query) {m n : Memo} (h : m.Alike n) :
    (after (r.ask q) m).Alike (after (r.ask q) n) := by
  rw [after_ask, after_ask]
  cases r.target q with
  | listed name i => exact r.fallback.after_get_alike name _ h
  | _ => exact h

theorem ask_comm (r : Registry) (p q : Query) (m : Memo) :
    (after (r.ask q) (after (r.ask p) m)).Alike (after (r.ask p) (after (r.ask q) m)) := by
  simp only [after_ask]
  cases hp : r.target p with
  | listed name i =>
    cases hq : r.target q with
    | listed other j =>
      by_cases same : name = other
      · subst same
        rw [r.names.index_unique (listed_of_target hp).2.1 (listed_of_target hq).2.1]
        exact .refl _
      · exact r.fallback.after_get_comm same _ _ m
    | _ => exact .refl _
  | _ => exact .refl _

theorem heard_alike (r : Registry) (qs : List Query) {m n : Memo} (h : m.Alike n) :
    (r.heard qs m).Alike (r.heard qs n) := by
  induction qs generalizing m n with
  | nil => exact h
  | cons q qs ih => exact ih (r.ask_alike q h)

/-- In whatever order lookups are made, the same cells are filled. -/
theorem heard_perm (r : Registry) (h : qs.Perm ps) (m : Memo) :
    (r.heard qs m).Alike (r.heard ps m) := by
  induction h generalizing m with
  | nil => exact .refl m
  | cons q _ ih => exact ih _
  | swap p q qs => exact r.heard_alike qs (r.ask_comm q p m)
  | trans _ _ ih ih' => exact (ih m).trans (ih' m)

/-- Every outcome is that of a registry which keeps nothing and constructs each codec anew, so
that no outcome depends on what was done before. Done in another order, the same operations leave
the same cells filled and the same events in another order, and all that is done later comes to
the same. -/
theorem memo_invisible (r : Registry) (ops : List Operation) :
    (r.run (r.steadily ops) r.start).1 = ops.map (r.plainly r.fallback.made) ∧
    (∀ before before' op,
      (r.perform op (r.run (r.steadily before) r.start).2).1 =
        (r.perform op (r.run (r.steadily before') r.start).2).1) ∧
    (∀ ops', ops.Perm ops' →
      (r.run (r.steadily ops) r.start).2.Alike (r.run (r.steadily ops') r.start).2 ∧
      ∀ later, (r.run (r.steadily later) (r.run (r.steadily ops) r.start).2).1 =
        (r.run (r.steadily later) (r.run (r.steadily ops') r.start).2).1) := by
  have start : r.fallback.settled r.start = r.fallback.made := rfl
  refine ⟨?_, fun before before' op => ?_, fun ops' perm => ⟨?_, fun later => ?_⟩⟩
  · rw [run_steadily, start]
  · rw [perform_eq, perform_eq, settled_run, settled_run]
  · rw [run_steadily, run_steadily]
    exact r.heard_perm (perm.flatMap_right _) _
  · rw [r.run_steadily later, r.run_steadily later, settled_run, settled_run]

end Registry

end TagCodec
