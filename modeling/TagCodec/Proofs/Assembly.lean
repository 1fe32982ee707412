import TagCodec.Proofs.NameOrder
import TagCodec.Proofs.TagSpace

namespace TagCodec

namespace Draft

inductive Step
  | codec (c : Codec)
  | constant (v : Value) (object : v ≠ .null)
  | name (s : String)
  | allow (allowed : Bool)
  | config (c : Config)
  | resolver (x : Resolver)
  | factory (f : Factory)

def take (d : Draft) : Step → Except DraftError Draft
  | .codec c => .ok (d.addCodec c)
  | .constant v object => d.addConstant v object
  | .name s => .ok (d.addName s)
  | .allow allowed => .ok (d.allow allowed)
  | .config c => .ok (d.withConfig c)
  | .resolver x => .ok (d.withResolver x)
  | .factory f => .ok (d.withFactory f)

/-- The draft behind the last step. An error comes with the number of steps in front of the one
that failed. -/
def follow (d : Draft) : List Step → Except (Nat × DraftError) Draft
  | [] => .ok d
  | s :: ss =>
    match d.take s with
    | .ok e => (e.follow ss).mapError fun (i, x) => (i + 1, x)
    | .error x => .error (0, x)

/-- Construction counts as one more step behind all others. -/
def complete (d : Draft) (ss : List Step) : Except (Nat × DraftError) Registry :=
  match d.follow ss with
  | .ok e => e.build.mapError fun x => (ss.length, x)
  | .error x => .error x

theorem follow_cons_ok {d e : Draft} (h : d.take s = .ok e) :
    d.follow (s :: ss) = (e.follow ss).mapError fun (i, x) => (i + 1, x) := by
  simp only [follow, h]

theorem follow_cons_error {d : Draft} (h : d.take s = .error x) :
    d.follow (s :: ss) = .error (0, x) := by
  simp only [follow, h]

theorem follow_cons_eq_ok {d e : Draft} (h : d.follow (s :: ss) = .ok e) :
    ∃ m, d.take s = .ok m ∧ m.follow ss = .ok e := by
  cases hs : d.take s with
  | error x =>
    rw [follow_cons_error hs] at h
    cases h
  | ok m =>
    rw [follow_cons_ok hs] at h
    cases hr : m.follow ss with
    | error x =>
      rw [hr] at h
      cases h
    | ok e' =>
      rw [hr] at h
      cases h
      exact ⟨m, rfl, hr⟩

theorem ext_entries {d e : Draft} (allowed : d.allowDefault = e.allowDefault)
    (codecs : d.codecs = e.codecs) (constants : d.constants = e.constants)
    (names : d.names = e.names) (fallback : d.fallback = e.fallback) : d = e := by
  cases d
  cases e
  cases allowed
  cases codecs
  cases constants
  cases names
  cases fallback
  rfl

theorem addCodec_of_new {d : Draft} (new : c.id ∉ d.codecs.map Codec.id) :
    d.addCodec c = { d with
      codecs := d.codecs ++ [c]
      codecs_distinct := by simpa using nodup_concat d.codecs_distinct new } :=
  dif_neg new

theorem addCodec_of_known {d : Draft} (known : c.id ∈ d.codecs.map Codec.id) :
    d.addCodec c = d :=
  dif_pos known

theorem foldl_addName (d : Draft) (xs : List String) :
    xs.foldl addName d = { d with names := xs.foldl Names.insert d.names } := by
  induction xs generalizing d with
  | nil => rfl
  | cons x xs ih => exact ih _

/-- Construction puts the codecs in order and changes nothing else. -/
theorem build_entries {d : Draft} {r : Registry} (built : d.build = .ok r) :
    r.allowDefault = d.allowDefault ∧ r.codecs = Codec.sortByName d.codecs ∧
      r.constants = d.constants ∧ r.names = d.names ∧ r.fallback = d.fallback := by
  rw [build_eq_ok built]
  exact ⟨rfl, rfl, rfl, rfl, rfl⟩

theorem build_of_large {d : Draft} (large : capacity < d.size) :
    d.build = .error (.tooLarge d.size) :=
  dif_neg (Nat.not_le_of_lt large)

theorem build_of_repeat {d : Draft} (fits : d.size ≤ capacity)
    (repeated : firstRepeat? [] ((Codec.sortByName d.codecs).flatMap Codec.claims) = some cls) :
    d.build = .error (.conflictingClaims cls) := by
  unfold build
  rw [dif_pos fits]
  split
  · rename_i other found
    rw [repeated] at found
    cases found
    rfl
  · rename_i distinct
    rw [repeated] at distinct
    cases distinct

theorem build_of_distinct {d : Draft} (fits : d.size ≤ capacity)
    (distinct : firstRepeat? [] ((Codec.sortByName d.codecs).flatMap Codec.claims) = none) :
    ∃ r, d.build = .ok r := by
  unfold build
  rw [dif_pos fits]
  split
  · rename_i repeated
    rw [distinct] at repeated
    cases repeated
  · exact ⟨_, rfl⟩

/-- Construction succeeds if there are tags enough and no two codecs claim one class. -/
theorem build_ok_iff (d : Draft) :
    (∃ r, d.build = .ok r) ↔ d.size ≤ capacity ∧ (d.codecs.flatMap Codec.claims).Nodup := by
  have order := (Codec.sortByName_perm d.codecs).flatMap_right Codec.claims
  constructor
  · rintro ⟨r, built⟩
    obtain ⟨_, codecs, constants, names, _⟩ := build_entries built
    have claims := r.claims_distinct
    have fits := r.fits
    rw [codecs] at claims
    rw [size, codecs, constants, names, (Codec.sortByName_perm d.codecs).length_eq] at fits
    exact ⟨fits, order.nodup_iff.mp claims⟩
  · rintro ⟨fits, claims⟩
    exact build_of_distinct fits
      (firstRepeat?_eq_none.mpr ⟨order.nodup_iff.mpr claims, fun _ _ => List.not_mem_nil⟩)

/-- Nor does the order of registration decide it. -/
theorem build_ok_perm {d e : Draft} (codecs : d.codecs.Perm e.codecs)
    (constants : d.constants = e.constants) (names : d.names = e.names) :
    (∃ a, d.build = .ok a) ↔ ∃ b, e.build = .ok b := by
  rw [build_ok_iff, build_ok_iff, size, size, codecs.length_eq, constants, names,
    (codecs.flatMap_right Codec.claims).nodup_iff]

end Draft

theorem Registry.ext_draft {a b : Registry} (h : a.toDraft = b.toDraft) : a = b := by
  cases a
  cases b
  cases h
  rfl

end TagCodec
