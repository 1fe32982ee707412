import TagCodec.Proofs.Lockstep
import TagCodec.Proofs.Transfer

namespace TagCodec

open Steps

namespace Registry

/-- Writes values one after the other, and goes on after errors behind what they leave. -/
def writeAll (r : Registry) : List Value → Encoder → List (Except CodingError Unit) × Encoder
  | [], s => ([], s)
  | v :: vs, s =>
    let (results, t) := r.writeAll vs (after (r.write v) s)
    (result (r.write v) s :: results, t)

/-- Reads so many values one after the other, up to the first error. -/
def readAll (r : Registry) : Nat → Decode (List Value)
  | 0 => return []
  | n + 1 => do
    let v ← r.read
    let vs ← r.readAll n
    return v :: vs

/-- What comes of writing a value into an empty buffer. -/
def alone (r : Registry) (m : Memo) (v : Value) : Except CodingError Unit :=
  result (r.write v) ⟨.empty, m⟩

/-- The bytes that are in the buffer then, also after an error. -/
def aloneBytes (r : Registry) (m : Memo) (v : Value) : List UInt8 :=
  (after (r.write v) ⟨.empty, m⟩).out.toList

/-- The value is written into an empty buffer and read back from there as the other one. -/
def Returns (r : Registry) (v u : Value) : Prop :=
  ∃ m m' n fresh bs s, r.Leads r.start m ∧ r.encode v m = .ok bs m' ∧ r.Leads r.start n ∧
    r.read ⟨.ofList bs, 0, fresh, n⟩ = .ok u s

theorem leads_heard {r : Registry} (h : r.Leads r.start m) (qs : List Query) :
    r.Leads r.start (r.heard qs m) := by
  induction qs generalizing m with
  | nil => exact h
  | cons q qs ih =>
    cases q with
    | byClass c => exact ih (h.resolve c)
    | byTag t => exact ih (h.resolveTag t)

section

variable {r : Registry} {m n : Memo}

theorem alone_eq (h : r.Leads r.start m) (v : Value) :
    r.alone m v = (r.transcript r.fallback.made v).outcome :=
  result_of_leaving (write_reached h v .empty)

theorem aloneBytes_eq (h : r.Leads r.start m) (v : Value) :
    r.aloneBytes m v = (r.transcript r.fallback.made v).items.flatMap Item.encode := by
  rw [aloneBytes, after_of_leaving (write_reached h v .empty), Output.toList_foldl_put]
  rfl

/-- A write into any buffer compared with a write into an empty one. -/
theorem write_alone (h : r.Leads r.start m) (h' : r.Leads r.start n) (v : Value) (out : Output) :
    result (r.write v) ⟨out, m⟩ = r.alone n v ∧
      (after (r.write v) ⟨out, m⟩).out.toList = out.toList ++ r.aloneBytes n v ∧
      r.Leads r.start (after (r.write v) ⟨out, m⟩).memo := by
  have written := write_reached h v out
  rw [alone_eq h', aloneBytes_eq h', result_of_leaving written, after_of_leaving written]
  exact ⟨rfl, Output.toList_foldl_put _ _, leads_heard h _⟩

theorem writeAll_alone (h : r.Leads r.start m) (h' : r.Leads r.start n) (vs : List Value)
    (out : Output) :
    (r.writeAll vs ⟨out, m⟩).1 = vs.map (r.alone n) ∧
      (r.writeAll vs ⟨out, m⟩).2.out.toList = out.toList ++ vs.flatMap (r.aloneBytes n) ∧
      r.Leads r.start (r.writeAll vs ⟨out, m⟩).2.memo := by
  induction vs generalizing m out with
  | nil => exact ⟨rfl, (List.append_nil _).symm, h⟩
  | cons v vs ih =>
    obtain ⟨same, bytes, reached⟩ := write_alone h h' v out
    obtain ⟨results, all, last⟩ := ih reached (after (r.write v) ⟨out, m⟩).out
    refine ⟨?_, ?_, last⟩
    · exact (congrArg (· :: _) same).trans (congrArg (_ :: ·) results)
    · rw [bytes, List.append_assoc] at all
      exact all

end

section

variable {a b : Registry} {v : Value} {s t : Decoder}

theorem Receives.of_ok (h : a.Receives b v room s c) (read : b.readWithin room s = .ok u t) :
    a.AllCoded Leaf.Readable v ∧ a.payloadDepth v ≤ room ∧ a.Mirrors b Leaf.reread? v u ∧
      t.input = c ∧ b.Sound t.memo := by
  by_cases readable : a.AllCoded Leaf.Readable v
  · rcases Nat.lt_or_ge room (a.payloadDepth v) with deep | enough
    · obtain ⟨s', failed⟩ := h.tooDeep readable deep
      rw [read] at failed
      cases failed
    · obtain ⟨v', s', found, mirrors, place, sound⟩ := h.complete readable enough
      rw [read] at found
      cases found
      exact ⟨readable, enough, mirrors, place, sound⟩
  · obtain ⟨e, s', failed⟩ := h.unreadable readable
    rw [read] at failed
    cases failed

theorem Spells.of_ok (peers : a.Peers b) (h : a.Spells v bs) (short : a.AllCoded Leaf.Short v)
    (sound : b.Sound s.memo) (faces : s.input = .facing pos (bs ++ rest))
    (read : b.readWithin room s = .ok u t) :
    a.AllCoded Leaf.Readable v ∧ a.payloadDepth v ≤ room ∧ a.Mirrors b Leaf.reread? v u ∧
      t.input = .facing (pos + bs.length) rest ∧ b.Sound t.memo :=
  (read_spelled peers h short sound faces room).of_ok read

theorem Spells.short_of_read (peers : a.Peers b) (h : a.Spells v bs) (sound : b.Sound s.memo)
    (faces : s.input = .facing pos (bs ++ rest)) (read : b.readWithin room s = .ok u t) :
    a.AllCoded Leaf.Short v := by
  induction h generalizing s t u pos rest room with
  | null => trivial
  | constant object registered => exact allCoded_of_constant registered _
  | leaf other offers complete =>
    rw [List.append_assoc] at faces
    obtain ⟨m, sound, tag⟩ := readTag_of_offers (peers.offers offers) sound faces
    obtain ⟨k, t', _, content, _⟩ := content_of_ok tag read
    have fits := Format.fits_of_payload (peers.noToken offers) complete
    exact fun _ => Format.short_of_read fits rfl content
  | @pair addr left right sign bs cs other offers first second ihl ihr =>
    rw [List.append_assoc, List.append_assoc] at faces
    obtain ⟨m, sound, tag⟩ := readTag_of_offers (peers.offers offers) sound faces
    obtain ⟨k, t', _, sides, _⟩ := content_of_ok tag read
    obtain ⟨l, t₁, first', sides⟩ := bind_eq_ok.mp sides
    obtain ⟨r, t₂, second', _⟩ := bind_eq_ok.mp sides
    have short := ihl sound rfl first'
    -- the right side is read from where the left one ends
    obtain ⟨_, _, _, place, sound⟩ := first.of_ok peers short sound rfl first'
    exact fun _ => ⟨short, ihr sound place second'⟩

end

section

variable {r : Registry} {m n : Memo}

/-- What is known of the bytes of a value that can be read on its own. -/
theorem Returns.spells (peers : r.Peers r) (h : r.Returns v u) (reached : r.Leads r.start n) :
    r.Spells v (r.aloneBytes n v) ∧ r.AllCoded Leaf.Short v ∧ r.AllCoded Leaf.Readable v ∧
      r.payloadDepth v ≤ nestingLimit ∧ r.Mirrors r Leaf.reread? v u := by
  obtain ⟨m, m', k, fresh, bs, s, wrote, encoded, reads, read⟩ := h
  unfold encode at encoded
  cases written : r.write v ⟨.empty, m⟩ with
  | error e s' =>
    rw [written] at encoded
    cases encoded
  | ok x s' =>
    rw [written] at encoded
    cases encoded
    obtain ⟨cs, spelled, out, _⟩ := write_spells wrote.sound written
    have bytes : r.aloneBytes n v = s'.out.toList := by
      rw [aloneBytes_eq reached, ← aloneBytes_eq wrote, aloneBytes, after_of_ok written]
    rw [Output.toList_empty, List.nil_append] at out
    rw [bytes, out]
    have faces : Cursor.ofList s'.out.toList = .facing 0 (cs ++ []) := by
      rw [List.append_nil, out]
      exact Cursor.ofList_eq_facing cs
    rw [read_eq nestingLimit rfl] at read
    have short := spelled.short_of_read peers reads.sound faces read
    obtain ⟨readable, enough, mirrors, _⟩ := spelled.of_ok peers short reads.sound faces read
    exact ⟨spelled, short, readable, enough, mirrors⟩

/-- Values that can be read one by one are read one after the other, to the end of their bytes. -/
theorem readAll_of_returns (peers : r.Peers r) (reached : r.Leads r.start n) {vs : List Value}
    (all : ∀ v ∈ vs, ∃ u, r.Returns v u) {s : Decoder} (sound : r.Sound s.memo)
    (top : s.depth = 0)
    (faces : s.input = .facing pos (vs.flatMap (r.aloneBytes n) ++ rest)) :
    ∃ ws t, r.readAll vs.length s = .ok ws t ∧
      t.input = .facing (pos + (vs.flatMap (r.aloneBytes n)).length) rest ∧ t.depth = 0 ∧
      ws.length = vs.length ∧ ∀ v w, (v, w) ∈ vs.zip ws → r.Mirrors r Leaf.reread? v w := by
  induction vs generalizing s pos with
  | nil => exact ⟨[], s, rfl, faces, top, rfl, nofun⟩
  | cons v vs ih =>
    obtain ⟨u, returned⟩ := all v List.mem_cons_self
    obtain ⟨spelled, short, readable, enough, _⟩ := returned.spells peers reached
    rw [List.flatMap_cons, List.append_assoc] at faces
    obtain ⟨w, t, read, mirrors, place, sound⟩ :=
      (read_spelled peers spelled short sound faces nestingLimit).complete readable enough
    have kept : t.depth = s.depth := (r.readWithin_sameDepth nestingLimit).ok read
    rw [← read_eq nestingLimit (by rw [top]; rfl)] at read
    obtain ⟨ws, t', rest, place, top, length, others⟩ :=
      ih (fun v hv => all v (List.mem_cons_of_mem _ hv)) sound (kept.trans top) place
    refine ⟨w :: ws, t', (bind_of_ok read).trans ((bind_of_ok rest).trans rfl), ?_, top,
      congrArg (· + 1) length, ?_⟩
    · rw [place, List.flatMap_cons, List.length_append, Nat.add_assoc]
    · intro v' w' paired
      rcases List.mem_cons.mp paired with same | paired
      · cases same
        exact mirrors
      · exact others v' w' paired

end

/-- A value written behind others, whatever became of them, adds the bytes that it is written as in
an empty buffer, with the same outcome. If all values of a run can be read on their own, as many
reads as there were writes give the same values in this order and end where the bytes end. -/
theorem runs_independent {d : Draft} {r : Registry} (built : d.build = .ok r)
    (known : ∀ f ∈ d.codecs.map Codec.format, f.isToken = false)
    (standard : d.fallback.factory = .standard) {m n k : Memo} (wrote : r.Leads r.start m)
    (reached : r.Leads r.start n) (reads : r.Leads r.start k) (vs : List Value) :
    (∀ out, (r.writeAll vs ⟨out, m⟩).1 = vs.map (r.alone n) ∧
      (r.writeAll vs ⟨out, m⟩).2.out.toList = out.toList ++ vs.flatMap (r.aloneBytes n)) ∧
    (∀ out v s, (r.writeAll vs ⟨out, m⟩).2 = s →
      result (r.write v) s = r.alone n v ∧
      (after (r.write v) s).out.toList = s.out.toList ++ r.aloneBytes n v) ∧
    ((∀ v ∈ vs, ∃ u, r.Returns v u) → ∀ fresh bs,
      (r.writeAll vs ⟨.empty, m⟩).2.out.toList = bs →
      ∃ ws t, r.readAll vs.length ⟨.ofList bs, 0, fresh, k⟩ = .ok ws t ∧
        t.input = .facing bs.length [] ∧ t.depth = 0 ∧ ws.length = vs.length ∧
        ∀ v w u, (v, w) ∈ vs.zip ws → r.Returns v u →
          r.Same u w ∧ (r.Mirrors r some v u → r.Mirrors r some v w)) := by
  have peers : r.Peers r := peers_of_build
    ⟨fun _ => .rfl, known, fun _ => .rfl, rfl, rfl, standard, rfl⟩ built built
  refine ⟨fun out => ?_, ?_, ?_⟩
  · obtain ⟨results, bytes, _⟩ := writeAll_alone wrote reached vs out
    exact ⟨results, bytes⟩
  · rintro out v s rfl
    obtain ⟨_, _, later⟩ := writeAll_alone wrote reached vs out
    obtain ⟨same, bytes, _⟩ := write_alone later reached v (r.writeAll vs ⟨out, m⟩).2.out
    exact ⟨same, bytes⟩
  · rintro all fresh bs rfl
    obtain ⟨_, bytes, _⟩ := writeAll_alone wrote reached vs .empty
    rw [Output.toList_empty, List.nil_append] at bytes
    have faces : Cursor.ofList (r.writeAll vs ⟨.empty, m⟩).2.out.toList =
        .facing 0 (vs.flatMap (r.aloneBytes n) ++ []) := by
      rw [bytes, List.append_nil]
      exact Cursor.ofList_eq_facing _
    obtain ⟨ws, t, run, place, top, length, mirrors⟩ :=
      readAll_of_returns peers reached all (s := ⟨_, 0, fresh, k⟩) reads.sound rfl faces
    rw [← bytes, Nat.zero_add] at place
    refine ⟨ws, t, run, place, top, length, ?_⟩
    intro v w u paired returned
    have mirrored := mirrors v w paired
    obtain ⟨_, _, _, _, first⟩ := returned.spells peers reached
    exact ⟨first.same mirrored, fun kept => mirrored.of_stable (first.stable kept)⟩

/-- Codecs for labels and pairs. -/
def labelsAndPairs : Draft := (Draft.empty.addCodec ⟨1, .label⟩).addCodec ⟨2, .pair⟩

def letter : Value := .leaf 3 (.label "a")

/-- A pair whose right side no codec is found for. -/
def halfWritten : Value := .pair 4 .null (.leaf 5 (.holder ⟨0, 0⟩))

theorem returns_letter {r : Registry} (built : labelsAndPairs.build = .ok r) :
    r.Returns letter (.leaf 7 (.label "a")) := by
  refine ⟨r.start, r.start, r.start, 7, [4, 1, 97], ⟨.facing 3 [], 0, 8, r.start⟩, .start, ?_,
    .start, ?_⟩
  · cases built
    decide +kernel
  · cases built
    decide +kernel

theorem letters_around_failure :
    ∃ r ws t, labelsAndPairs.build = .ok r ∧
      (r.writeAll [letter, halfWritten, letter] ⟨.empty, r.start⟩).1 =
        [.ok (), .error (.noCodec (.notListed "demo.Holder")), .ok ()] ∧
      (r.writeAll [letter, halfWritten, letter] ⟨.empty, r.start⟩).2.out.toList =
        [4, 1, 97] ++ [2, 0] ++ [4, 1, 97] ∧
      r.readAll 2 ⟨.ofList ([4, 1, 97] ++ [4, 1, 97]), 0, 7, r.start⟩ = .ok ws t ∧
      t.input = .facing 6 [] ∧ ws.length = 2 ∧
      ∀ v w, (v, w) ∈ [letter, letter].zip ws → r.Mirrors r some v w := by
  obtain ⟨r, built⟩ : ∃ r, labelsAndPairs.build = .ok r := ⟨_, rfl⟩
  have known : ∀ f ∈ labelsAndPairs.codecs.map Codec.format, f.isToken = false := by decide
  have returned := returns_letter built
  obtain ⟨mixed, _⟩ := runs_independent built known rfl .start .start .start
    [letter, halfWritten, letter]
  obtain ⟨_, _, whole⟩ := runs_independent built known rfl .start .start .start [letter, letter]
  have bytes : (r.writeAll [letter, letter] ⟨.empty, r.start⟩).2.out.toList =
      [4, 1, 97] ++ [4, 1, 97] := by
    cases built
    decide +kernel
  have label : ∀ v ∈ [letter, letter], v = letter := by simp
  obtain ⟨ws, t, run, place, _, length, same⟩ :=
    whole (fun v hv => ⟨_, label v hv ▸ returned⟩) 7 _ bytes
  refine ⟨r, ws, t, built, (mixed .empty).1.trans ?_, (mixed .empty).2.trans ?_, run, place, length,
    ?_⟩
  · cases built
    rfl
  · cases built
    decide +kernel
  · intro v w paired
    have first := label v (List.of_mem_zip paired).1
    subst first
    refine (same _ w _ paired returned).2 (.leaf ?_ rfl)
    cases built
    rfl

end Registry

end TagCodec
