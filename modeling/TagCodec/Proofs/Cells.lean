import TagCodec.Fallback.Memo
import TagCodec.Proofs.Steps

namespace TagCodec

open Steps

namespace Memo

/-- Every cell filled in the first memo is filled with the same outcome in the second. -/
def Retains (m n : Memo) : Prop := ∀ name cell, m.cell? name = some cell → n.cell? name = some cell

theorem Retains.refl (m : Memo) : m.Retains m := fun _ _ h => h

theorem Retains.trans {m n k : Memo} (h : m.Retains n) (g : n.Retains k) : m.Retains k :=
  fun name cell hc => g name cell (h name cell hc)

theorem retains_fill {m : Memo} (empty : m.cell? name = none) (cell : Option Format)
    (events : List Event) : m.Retains (m.fill name cell events) := by
  intro n c hc
  rw [cell_fill]
  split
  · rename_i same
    rw [same, empty] at hc
    cases hc
  · exact hc

end Memo

namespace Fallback

/-- The two outcomes for a name, each with what is in its cell afterwards. -/
theorem get_cases (b : Fallback) (name : String) (t : Tag) (m : Memo) :
    (∃ f n, b.get name t m = .ok f n ∧ n.cell? name = some (some f)) ∨
    (∃ n, b.get name t m = .error (.constructionFailed name) n ∧
      n.cell? name = some Option.none) := by
  cases hc : m.cell? name with
  | some cell =>
    rw [get_of_cell b t hc]
    cases cell with
    | some f => exact .inl ⟨f, m, rfl, hc⟩
    | none => exact .inr ⟨m, rfl, hc⟩
  | none =>
    rw [get_of_empty b t hc]
    cases hb : (b.construct name).toOption with
    | some f => exact .inl ⟨f, _, rfl, by rw [Memo.cell_fill, if_pos rfl]⟩
    | none => exact .inr ⟨_, rfl, by rw [Memo.cell_fill, if_pos rfl]⟩

theorem cell_of_get {b : Fallback} (h : b.get name t m = .ok f n) :
    n.cell? name = some (some f) := by
  rcases b.get_cases name t m with ⟨g, k, hg, hc⟩ | ⟨k, hg, _⟩
  · rw [hg] at h
    cases h
    exact hc
  · rw [hg] at h
    cases h

theorem after_get_of_filled {m : Memo} (b : Fallback) (t : Tag) (h : m.cell? name = some cell) :
    after (b.get name t) m = m := by
  simp only [after, get_of_cell b t h]
  cases cell <;> rfl

theorem after_get_of_empty {m : Memo} (b : Fallback) (t : Tag)
    (h : m.cell? name = Option.none) : after (b.get name t) m =
      m.fill name (b.construct name).toOption (b.eventsOf name t) := by
  rw [after, get_of_empty b t h]
  cases (b.construct name).toOption <;> rfl

theorem get_retains (b : Fallback) (name : String) (t : Tag) :
    Keeps Memo.Retains (b.get name t) := by
  intro m
  cases hc : m.cell? name with
  | some cell =>
    rw [after_get_of_filled b t hc]
    exact .refl m
  | none =>
    rw [after_get_of_empty b t hc]
    exact Memo.retains_fill hc _ _

end Fallback

end TagCodec
