import TagCodec.Draft
import TagCodec.Layout

namespace TagCodec

namespace Codec

def name (c : Codec) : String := c.format.primary.name

def claims (c : Codec) : List String := c.format.claims

/-- Puts a codec in front of the first one whose class name is not smaller. -/
def insertByName (c : Codec) : List Codec → List Codec
  | [] => [c]
  | d :: ds => if c.name ≤ d.name then c :: d :: ds else d :: insertByName c ds

/-- Codecs of equal class names keep their order. -/
def sortByName (cs : List Codec) : List Codec := cs.foldr insertByName []

theorem insertByName_perm (c : Codec) (cs : List Codec) : (insertByName c cs).Perm (c :: cs) := by
  induction cs with
  | nil => exact .refl _
  | cons d ds ih =>
    unfold insertByName
    split
    · exact .refl _
    · exact (ih.cons d).trans (.swap c d ds)

theorem sortByName_perm (cs : List Codec) : (sortByName cs).Perm cs := by
  induction cs with
  | nil => exact .refl _
  | cons c cs ih => exact (insertByName_perm c _).trans (ih.cons c)

theorem insertByName_sorted {c : Codec} {cs : List Codec}
    (h : cs.Pairwise fun a b => a.name ≤ b.name) :
    (insertByName c cs).Pairwise fun a b => a.name ≤ b.name := by
  induction cs with
  | nil => simp [insertByName]
  | cons d ds ih =>
    obtain ⟨least, rest⟩ := List.pairwise_cons.mp h
    unfold insertByName
    split
    · rename_i before
      refine List.pairwise_cons.mpr ⟨fun e he => ?_, h⟩
      rcases List.mem_cons.mp he with rfl | he
      · exact before
      · exact String.le_trans before (least e he)
    · rename_i after
      refine List.pairwise_cons.mpr ⟨fun e he => ?_, ih rest⟩
      rcases List.mem_cons.mp ((insertByName_perm c ds).mem_iff.mp he) with rfl | he
      · exact (String.le_total _ _).resolve_left after
      · exact least e he

theorem sortByName_sorted (cs : List Codec) :
    (sortByName cs).Pairwise fun a b => a.name ≤ b.name := by
  induction cs with
  | nil => exact .nil
  | cons c cs ih => exact insertByName_sorted ih

end Codec

/-- The first name that stands among those in front of it or in `seen`. -/
def firstRepeat? (seen : List String) : List String → Option String
  | [] => none
  | x :: xs => if x ∈ seen then some x else firstRepeat? (x :: seen) xs

theorem firstRepeat?_eq_none {seen xs : List String} :
    firstRepeat? seen xs = none ↔ xs.Nodup ∧ ∀ x ∈ xs, x ∉ seen := by
  induction xs generalizing seen with
  | nil => simp [firstRepeat?]
  | cons x xs ih =>
    by_cases h : x ∈ seen
    · simp [firstRepeat?, h]
    · rw [firstRepeat?, if_neg h, ih, List.nodup_cons, List.forall_mem_cons]
      simp only [List.mem_cons, not_or]
      constructor
      · rintro ⟨nodup, other⟩
        exact ⟨⟨fun hx => (other x hx).1 rfl, nodup⟩, h, fun y hy => (other y hy).2⟩
      · rintro ⟨⟨new, nodup⟩, -, other⟩
        exact ⟨nodup, fun y hy => ⟨fun same => new (same ▸ hy), other y hy⟩⟩

/-- As many entries as leave a tag behind the last one. -/
def capacity : Nat := 0x7FFFFFFE

def Draft.size (d : Draft) : Nat := d.codecs.length + d.constants.length + d.names.size

/-- A draft that passed the checks of construction. It can be extended and built again. -/
structure Registry extends Draft where
  codecs_sorted : codecs.Pairwise fun a b => a.name ≤ b.name
  claims_distinct : (codecs.flatMap Codec.claims).Nodup
  fits : toDraft.size ≤ capacity

/-- The draft as it stands, but for the order of its codecs. -/
def Draft.build (d : Draft) : Except DraftError Registry :=
  if fits : d.size ≤ capacity then
    match distinct : firstRepeat? [] ((Codec.sortByName d.codecs).flatMap Codec.claims) with
    | some cls => .error (.conflictingClaims cls)
    | none => .ok { d with
        codecs := Codec.sortByName d.codecs
        codecs_distinct :=
          ((Codec.sortByName_perm d.codecs).map Codec.id).nodup_iff.mpr d.codecs_distinct
        codecs_sorted := Codec.sortByName_sorted d.codecs
        claims_distinct := (firstRepeat?_eq_none.mp distinct).1
        fits := by
          rw [Draft.size] at fits ⊢
          rw [(Codec.sortByName_perm d.codecs).length_eq]
          exact fits }
  else .error (.tooLarge d.size)

namespace Registry

/-- What a registry knows before it is asked for anything. -/
def start (r : Registry) : Memo :=
  ⟨[], [.built r.codecs.length r.constants.length r.names.size r.allowDefault]⟩

def debugText (r : Registry) : String :=
  "CodecRegistry \x7b allow_default_codec: " ++ toString r.allowDefault
    ++ ", explicit: " ++ toString r.codecs.length
    ++ ", constants: " ++ toString r.constants.length
    ++ ", fallback: " ++ toString r.names.size ++ " \x7d"

end Registry

end TagCodec
