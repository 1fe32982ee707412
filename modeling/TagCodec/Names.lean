namespace TagCodec

/-- Ordered by code points. -/
structure Names where
  toList : List String
  sorted : toList.Pairwise (· < ·)
deriving DecidableEq

namespace Names

def insertIn (s : String) : List String → List String
  | [] => [s]
  | n :: ns => if s < n then s :: n :: ns else if s = n then n :: ns else n :: insertIn s ns

theorem mem_insertIn {s n : String} {ns : List String} :
    n ∈ insertIn s ns ↔ n = s ∨ n ∈ ns := by
  induction ns with
  | nil => simp [insertIn]
  | cons m ns ih =>
    unfold insertIn
    split
    · simp
    · split
      · rename_i same
        subst same
        simp
      · simp only [List.mem_cons, ih]
        exact or_left_comm

theorem insertIn_sorted (s : String) {ns : List String} (h : ns.Pairwise (· < ·)) :
    (insertIn s ns).Pairwise (· < ·) := by
  induction ns with
  | nil => simp [insertIn]
  | cons n ns ih =>
    obtain ⟨least, rest⟩ := List.pairwise_cons.mp h
    unfold insertIn
    split
    · rename_i before
      refine List.pairwise_cons.mpr ⟨fun m hm => ?_, h⟩
      rcases List.mem_cons.mp hm with rfl | hm
      · exact before
      · exact String.lt_trans before (least m hm)
    · split
      · exact h
      · rename_i notBefore different
        refine List.pairwise_cons.mpr ⟨fun m hm => ?_, ih rest⟩
        rcases mem_insertIn.mp hm with rfl | hm
        · exact Std.lt_of_le_of_ne (String.not_lt.mp notBefore) (Ne.symm different)
        · exact least m hm

def empty : Names := ⟨[], .nil⟩

def size (ns : Names) : Nat := ns.toList.length

/-- Changes nothing if the name is there already. -/
def insert (ns : Names) (s : String) : Names := ⟨insertIn s ns.toList, insertIn_sorted s ns.sorted⟩

def ofList (xs : List String) : Names := xs.foldl insert empty

/-- How many names come before this one, if it is there. -/
def index? (ns : Names) (s : String) : Option Nat := ns.toList.idxOf? s

def get? (ns : Names) (i : Nat) : Option String := ns.toList[i]?

@[simp] theorem toList_empty : empty.toList = [] := rfl

@[simp] theorem mem_insert {ns : Names} {s n : String} :
    n ∈ (ns.insert s).toList ↔ n = s ∨ n ∈ ns.toList :=
  mem_insertIn

end Names

end TagCodec
