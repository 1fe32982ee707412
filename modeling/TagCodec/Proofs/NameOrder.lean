import TagCodec.Names

namespace TagCodec.Names

theorem get_of_index {ns : Names} (h : ns.index? s = some i) : ns.toList[i]? = some s := by
  obtain ⟨hi, hs, _⟩ := List.idxOf?_eq_some_iff.mp h
  exact List.getElem?_eq_some_iff.mpr ⟨hi, hs⟩

theorem distinct (ns : Names) : ns.toList.Nodup :=
  ns.sorted.imp fun less => Std.ne_of_lt less

theorem index_unique (ns : Names) {i j : Nat} (h : ns.toList[i]? = some s)
    (g : ns.toList[j]? = some s) : i = j :=
  (List.getElem?_inj (List.getElem?_eq_some_iff.mp h).1 ns.distinct).mp (h.trans g.symm)

theorem index_of_get {ns : Names} (h : ns.toList[i]? = some s) : ns.index? s = some i := by
  cases found : ns.index? s with
  | some j => rw [ns.index_unique h (get_of_index found)]
  | none => exact absurd (List.mem_of_getElem? h) (List.idxOf?_eq_none_iff.mp found)

/-- The place of a name is the number of smaller names. -/
theorem countP_lt_of_sorted {xs : List String} (sorted : xs.Pairwise (· < ·))
    (h : xs[i]? = some n) : xs.countP (· < n) = i := by
  induction xs generalizing i with
  | nil => cases h
  | cons x xs ih =>
    obtain ⟨least, rest⟩ := List.pairwise_cons.mp sorted
    rw [List.countP_cons]
    cases i with
    | zero =>
      cases h
      have none : xs.countP (· < n) = 0 := by
        refine List.countP_eq_zero.mpr fun s hs => ?_
        exact mt of_decide_eq_true (String.not_lt.mpr (Std.le_of_lt (least s hs)))
      rw [none, if_neg (by simp)]
    | succ i =>
      have before : x < n := least n (List.mem_of_getElem? h)
      rw [ih rest h, if_pos (decide_eq_true before)]

theorem getElem?_countP (ns : Names) (h : n ∈ ns.toList) :
    ns.toList[ns.toList.countP (· < n)]? = some n := by
  obtain ⟨i, hi⟩ := List.mem_iff_getElem?.mp h
  rw [countP_lt_of_sorted ns.sorted hi]
  exact hi

/-- Sorted lists of names are told apart by what is in them. -/
theorem ext {ns ms : Names} (same : ∀ s, s ∈ ns.toList ↔ s ∈ ms.toList) : ns = ms := by
  have perm := (List.perm_ext_iff_of_nodup ns.distinct ms.distinct).mpr same
  obtain ⟨xs, hx⟩ := ns
  obtain ⟨ys, hy⟩ := ms
  have eq : xs = ys :=
    perm.eq_of_pairwise (fun a b _ _ h g => absurd (String.lt_trans h g) (Std.lt_irrefl)) hx hy
  subst eq
  rfl

theorem mem_foldl_insert (ns : Names) (xs : List String) (s : String) :
    s ∈ (xs.foldl insert ns).toList ↔ s ∈ ns.toList ∨ s ∈ xs := by
  induction xs generalizing ns with
  | nil => simp
  | cons x xs ih =>
    rw [List.foldl_cons, ih, mem_insert, List.mem_cons, or_assoc]
    exact or_left_comm

theorem mem_ofList (xs : List String) (s : String) : s ∈ (ofList xs).toList ↔ s ∈ xs := by
  rw [ofList, mem_foldl_insert]
  exact or_iff_right List.not_mem_nil

end TagCodec.Names
