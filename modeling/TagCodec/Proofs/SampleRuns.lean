import TagCodec.Proofs.SampleRegistry
import TagCodec.Proofs.WriteRuns

namespace TagCodec

open Steps

namespace Registry

variable {r : Registry} {m n : Memo}

theorem leads_encode (reached : r.Leads r.start m) (v : Value) :
    r.Leads r.start (after (r.encode v) m) := by
  obtain ⟨_, _, later⟩ := write_alone reached reached v .empty
  unfold after encode at *
  cases hw : r.write v ⟨.empty, m⟩ <;> rw [hw] at later <;> exact later

theorem leads_decode (reached : r.Leads r.start m) (bs : List UInt8) (fresh : Nat) :
    r.Leads r.start (after (r.decode bs fresh) m) := by
  have same : after (r.decode bs fresh) m = (after r.read ⟨.ofList bs, 0, fresh, m⟩).memo := by
    unfold after decode
    cases r.read ⟨.ofList bs, 0, fresh, m⟩ <;> rfl
  have heard : (after r.read ⟨.ofList bs, 0, fresh, m⟩).memo = r.heard _ m :=
    congrArg Prod.snd (r.perform_eq (.read (.ofList bs) 0 fresh) m)
  rw [same, heard]
  exact leads_heard reached _

/-- What a registry reads of the value's bytes has to be the same value. -/
structure Restorable (r : Registry) (v : Value) : Prop where
  mirrored : r.Mirrors r some v v
  short : r.AllCoded Leaf.Short v
  stable : r.AllCoded Leaf.Stable v
  shallow : r.payloadDepth v ≤ nestingLimit

theorem decode_of_encode (peers : r.Peers r) (reached : r.Leads r.start m)
    (kept : r.Restorable v) (encoded : r.encode v m = .ok bs n) (fresh : Nat) :
    ∃ w k, r.decode bs fresh n = .ok w k ∧ r.Same v w ∧ r.Leads r.start k := by
  have later : r.Leads r.start n := after_of_ok encoded ▸ leads_encode reached v
  have readable : r.AllCoded Leaf.Readable v := kept.stable.imp fun x stable => by
    rw [Leaf.Readable, Leaf.reread_eq_self.mpr stable]
    rfl
  have faces : Cursor.ofList bs = .facing 0 (bs ++ []) := by
    rw [List.append_nil]
    exact Cursor.ofList_eq_facing bs
  have received := read_spelled peers (spells_of_encode reached encoded) kept.short
    (s := ⟨.ofList bs, 0, fresh, n⟩) later.sound faces nestingLimit
  obtain ⟨w, s, read, mirrors, _⟩ := received.complete readable kept.shallow
  have top : r.read ⟨.ofList bs, 0, fresh, n⟩ =
      r.readWithin nestingLimit ⟨.ofList bs, 0, fresh, n⟩ := read_eq nestingLimit rfl
  have decoded : r.decode bs fresh n = .ok w s.memo := by
    unfold decode
    rw [top, read]
  refine ⟨w, s.memo, decoded, kept.mirrored.same (mirrors.of_stable kept.stable), ?_⟩
  exact after_of_ok decoded ▸ leads_decode later bs fresh

theorem Same.optionText {v w : Value} (h : r.Same v w) : w.optionText = v.optionText := by
  induction h with
  | null => rfl
  | constant listed => rfl
  | leaf x => rfl
  | pair left right ihl ihr =>
    unfold Value.optionText
    rw [ihl, ihr]

end Registry

namespace CommandLine

open Registry

/-- What comes of a sample: it is returned from these bytes, or there is no codec for it. -/
inductive Fate
  | returned (bs : List UInt8)
  | refused (e : LookupError)

namespace Fate

/-- What is printed for a sample. -/
def line (v : Value) : Fate → String
  | returned bs => v.optionText ++ " -> " ++ bytesText bs ++ " -> " ++ v.optionText
  | refused e => v.optionText ++ ": encode failed: " ++ e.message

/-- What is told of the writing of a sample with this fate. -/
def Tells : Fate → Payload → Prop
  | returned bs, p => ∃ items, p = .complete items ∧ items.flatMap Item.encode = bs
  | refused e, p => p = ⟨[], some (.noCodec e)⟩

end Fate

/-- The fates of samples, one after the other, with what the registry knows in between. -/
inductive Settles (r : Registry) : List Value → List Fate → Memo → Prop
  | nil : Settles r [] [] m
  | returned (written : r.encode v m = .ok bs n) (read : r.decode bs freshAddress n = .ok w k)
      (same : r.Same v w) (rest : Settles r vs fates k) :
      Settles r (v :: vs) (.returned bs :: fates) m
  | refused (failed : r.encode v m = .error (.noCodec e) n) (rest : Settles r vs fates n) :
      Settles r (v :: vs) (.refused e :: fates) m

/-- The fates that can be told of samples before the first is written. -/
inductive Foretold (r : Registry) : List Value → List Fate → Prop
  | nil : Foretold r [] []
  | cons (told : fate.Tells (r.transcript r.fallback.made v).toPayload) (kept : r.Restorable v)
      (rest : Foretold r vs fates) : Foretold r (v :: vs) (fate :: fates)

variable {r : Registry}

/-- One sample. Whatever it comes to, the registry goes on to the next one. -/
theorem settles_cons (peers : r.Peers r) {m : Memo} (reached : r.Leads r.start m)
    {fate : Fate} (told : fate.Tells (r.transcript r.fallback.made v).toPayload)
    (kept : r.Restorable v) (rest : ∀ n, r.Leads r.start n → Settles r vs fates n) :
    Settles r (v :: vs) (fate :: fates) m := by
  cases fate with
  | returned bs =>
    obtain ⟨items, complete, rfl⟩ := told
    obtain ⟨n, encoded⟩ := encode_of_complete reached complete
    obtain ⟨w, k, decoded, same, later⟩ :=
      decode_of_encode peers reached kept encoded freshAddress
    exact .returned encoded decoded same (rest k later)
  | refused e =>
    obtain ⟨s, failed, _⟩ := write_of_fault reached told .empty
    have encoded : r.encode v m = .error (.noCodec e) s.memo := by
      unfold Registry.encode
      rw [failed]
    exact .refused encoded (rest _ (after_of_error encoded ▸ leads_encode reached v))

theorem Foretold.settles (peers : r.Peers r) (h : Foretold r vs fates) {m : Memo}
    (reached : r.Leads r.start m) : Settles r vs fates m := by
  induction h generalizing m with
  | nil => exact .nil
  | cons told kept _ ih => exact settles_cons peers reached told kept fun n later => ih later

/-- Each fate is printed as one line. -/
theorem Settles.sampleLines_eq {m : Memo} (h : Settles r vs fates m) :
    sampleLines r vs m = List.zipWith Fate.line vs fates := by
  induction h with
  | nil => rfl
  | returned written read same _ ih =>
    simp only [sampleLines, sampleLine, written, read, same.optionText, ih]
    rfl
  | refused failed _ ih =>
    simp only [sampleLines, sampleLine, failed, ih]
    rfl

/-- What a sample comes to whose class has no registered codec: its bytes are the payload behind the
tag that the layout lists under the name of the class, if the class counts. -/
inductive OnDemand (c : Config) (l : Layout) (name : String) (payload : List UInt8) : Fate → Prop
  | listed (allowed : c.allowDefault = true) (configured : name ∈ c.fallbackClasses)
      (entry : ⟨t, name⟩ ∈ l.fallback) :
      OnDemand c l name payload (.returned ((Item.tag t).encode ++ payload))
  | disabled (off : c.allowDefault = false) :
      OnDemand c l name payload (.refused (.fallbackDisabled name))
  | missing (allowed : c.allowDefault = true) (absent : name ∉ c.fallbackClasses) :
      OnDemand c l name payload (.refused (.notListed name))

/-- A leaf that is no constant is told by the codec that answers for its class. -/
theorem transcript_leaf {x : Leaf} (other : r.constantTag? (.leaf addr x) = none) :
    r.transcript r.fallback.made (.leaf addr x) =
      r.coded r.fallback.made x.cls fun f => ⟨f.payload x, []⟩ := by
  unfold transcript
  rw [other]

theorem tells_refused {x : Leaf} (other : r.constantTag? (.leaf addr x) = none)
    (failed : r.answer r.fallback.made (.byClass x.cls) = .error e) :
    (Fate.refused e).Tells (r.transcript r.fallback.made (.leaf addr x)).toPayload := by
  rw [transcript_leaf other, toPayload_coded, failed]
  rfl

theorem tells_returned {x : Leaf} (other : r.constantTag? (.leaf addr x) = none)
    (found : r.answer r.fallback.made (.byClass x.cls) = .ok b)
    (complete : b.format.payload x = .complete items) :
    (Fate.returned ((Item.tag b.tag).encode ++ items.flatMap Item.encode)).Tells
      (r.transcript r.fallback.made (.leaf addr x)).toPayload := by
  rw [transcript_leaf other]
  exact ⟨.tag b.tag :: items, complete_coded found complete, rfl⟩

theorem exists_onDemand (h : Configures c r) {x : Leaf}
    (other : r.constantTag? (.leaf addr x) = none) (free : r.explicitFor? x.cls = none)
    (itself : x.cls.declaring = x.cls) (made : r.fallback.made x.cls.name = some f)
    (complete : f.payload x = .complete items) :
    ∃ fate, OnDemand c r.layout x.cls.name (items.flatMap Item.encode) fate ∧
      fate.Tells (r.transcript r.fallback.made (.leaf addr x)).toPayload := by
  have members : x.cls.name ∈ r.names.toList ↔ x.cls.name ∈ c.fallbackClasses := by
    rw [h.names, Names.mem_ofList]
  cases allowed : c.allowDefault with
  | false =>
    refine ⟨_, .disabled allowed, tells_refused other ?_⟩
    simp [answer, target, free, h.allowed, allowed]
  | true =>
    have switch : r.allowDefault = true := h.allowed.trans allowed
    by_cases configured : x.cls.name ∈ c.fallbackClasses
    · obtain ⟨i, place⟩ := List.mem_iff_getElem?.mp (members.mpr configured)
      have inside := (List.getElem?_eq_some_iff.mp place).1
      have entry : ⟨r.fallbackTag i, x.cls.name⟩ ∈ r.layout.fallback :=
        mem_fallback.mpr ⟨i, (assigns_fallback_iff switch).mpr ⟨inside, rfl⟩, place⟩
      have aims : r.target (.byClass x.cls) = .listed x.cls.name i :=
        target_of_wants switch place ⟨free, congrArg Class.name itself⟩
      have found : r.answer r.fallback.made (.byClass x.cls) = .ok ⟨r.fallbackTag i, f, none⟩ := by
        simp only [answer, aims, made]
        rfl
      have told := tells_returned other found complete
      exact ⟨_, .listed allowed configured entry, told⟩
    · have unlisted : r.names.index? x.cls.name = none :=
        List.idxOf?_eq_none_iff.mpr (mt members.mp configured)
      refine ⟨_, .missing allowed configured, tells_refused other ?_⟩
      simp only [answer, target, free, switch, if_true, itself, unlisted]

theorem restorable_leaf {x : Leaf} (other : r.constantTag? (.leaf addr x) = none)
    (short : x.Short) (stable : x.Stable) : r.Restorable (.leaf addr x) where
  mirrored := .leaf other rfl
  short _ := short
  stable _ := stable
  shallow := by
    rw [payloadDepth, other]
    decide

theorem restorable_constant {i : Nat} {v : Value} (place : r.constants[i]? = some v) :
    r.Restorable v where
  mirrored := .constant place rfl place
  short := allCoded_of_constant (constantTag_of_listed place) _
  stable := allCoded_of_constant (constantTag_of_listed place) _
  shallow := by
    rw [payloadDepth_of_constant (constantTag_of_listed place)]
    exact Nat.zero_le _

theorem restorable_null : r.Restorable .null := ⟨.null, trivial, trivial, Nat.zero_le _⟩

def sampleCircle : Leaf := .record (.circle ⟨0x3FF8000000000000⟩)

def sampleSwatch : Leaf := .member .swatch (2 : Fin 3)

/-- The length of the text and the text itself, `\x7b"radius":1.5\x7d`. -/
def circlePayload : List UInt8 :=
  [0x0E, 0x7B, 0x22, 0x72, 0x61, 0x64, 0x69, 0x75, 0x73, 0x22, 0x3A, 0x31, 0x2E, 0x35, 0x7D]

/-- The number of the case. -/
def swatchPayload : List UInt8 := [0x02]

theorem circle_complete : (Format.fields Catalog.circle .circle).payload sampleCircle =
    .complete [.bytes circlePayload.tail] := by
  decide +kernel

theorem circle_bytes : [Item.bytes circlePayload.tail].flatMap Item.encode = circlePayload := by
  decide +kernel

theorem circle_stable : sampleCircle.Stable := by
  intro x hx
  cases List.mem_singleton.mp hx
  decide +kernel

theorem swatch_complete : (Format.ordinal Catalog.swatch .swatch).payload sampleSwatch =
    .complete [.varint 2] := rfl

theorem swatch_bytes : [Item.varint 2].flatMap Item.encode = swatchPayload := by
  decide +kernel

section

variable (h : Configures c r)

include h

theorem told_origin : (Fate.returned [0x04]).Tells
    (r.transcript r.fallback.made origin).toPayload := by
  have bare : r.transcript r.fallback.made origin = .bare ⟨2⟩ := by
    unfold origin transcript
    rw [← origin, h.constantTag_origin]
  rw [bare]
  exact ⟨[.tag ⟨2⟩], rfl, by decide +kernel⟩

theorem told_point (other : r.constantTag? (.leaf addr (.point ⟨3, -4⟩)) = none) :
    (Fate.returned [0x02, 0x06, 0x07]).Tells
      (r.transcript r.fallback.made (.leaf addr (.point ⟨3, -4⟩))).toPayload := by
  have found := answer_of_explicit h.explicitFor_point r.fallback.made
  have told := tells_returned other found rfl
  have bytes : (Item.tag ⟨1⟩).encode ++ [Item.sint32 3, Item.sint32 (-4)].flatMap Item.encode =
      [0x02, 0x06, 0x07] := by
    decide +kernel
  rwa [bytes] at told

theorem foretold_samples : ∃ circle swatch,
    OnDemand c r.layout Catalog.circle.name circlePayload circle ∧
    OnDemand c r.layout Catalog.swatch.name swatchPayload swatch ∧
    Foretold r samples [.returned [0x00], .returned [0x04], .returned [0x02, 0x06, 0x07],
      circle, swatch] := by
  have constant : r.constants[0]? = some origin := by
    rw [h.constants]
    rfl
  have noPoint : r.constantTag? (.leaf 1 (.point ⟨3, -4⟩)) = none :=
    h.constantTag_other (by decide)
  have noCircle : r.constantTag? (.leaf 2 sampleCircle) = none := h.constantTag_other (by decide)
  have noSwatch : r.constantTag? (.leaf 3 sampleSwatch) = none := h.constantTag_other (by decide)
  obtain ⟨circle, onCircle, toldCircle⟩ := exists_onDemand h noCircle
    (h.explicitFor_other (by decide)) rfl h.made_circle circle_complete
  obtain ⟨swatch, onSwatch, toldSwatch⟩ := exists_onDemand h noSwatch
    (h.explicitFor_other (by decide)) rfl h.made_swatch swatch_complete
  rw [circle_bytes] at onCircle
  rw [swatch_bytes] at onSwatch
  refine ⟨circle, swatch, onCircle, onSwatch, ?_⟩
  refine .cons ⟨[.tag .null], rfl, by decide +kernel⟩ restorable_null ?_
  refine .cons (told_origin h) (restorable_constant constant) ?_
  refine .cons (told_point h noPoint) (restorable_leaf noPoint trivial trivial) ?_
  refine .cons toldCircle (restorable_leaf noCircle trivial circle_stable) ?_
  exact .cons toldSwatch (restorable_leaf noSwatch trivial trivial) .nil

end

/-- The text breaks no line. -/
def OneLine (s : String) : Prop := '\n' ∉ s.toList

instance (s : String) : Decidable (OneLine s) := inferInstanceAs (Decidable ('\n' ∉ s.toList))

theorem OneLine.append (hs : OneLine s) (ht : OneLine t) : OneLine (s ++ t) := by
  rw [OneLine, String.toList_append, List.mem_append, not_or]
  exact ⟨hs, ht⟩

theorem OneLine.intercalate (sep : OneLine s) {ts : List String} (all : ∀ t ∈ ts, OneLine t) :
    OneLine (s.intercalate ts) := by
  rw [OneLine, String.toList_intercalate]
  induction ts with
  | nil => exact List.not_mem_nil
  | cons t ts ih =>
    obtain ⟨first, others⟩ := List.forall_mem_cons.mp all
    cases ts with
    | nil => simpa [OneLine] using first
    | cons u us =>
      rw [List.map_cons, List.map_cons, List.intercalate_cons_cons, List.mem_append,
        List.mem_append, not_or, not_or]
      exact ⟨⟨first, sep⟩, ih others⟩

theorem oneLine_hexDigits (b : UInt8) : OneLine (hexDigits b) := by
  have digits : ∀ n < 16, '\n' ≠ Nat.digitChar n := by decide
  have byte := b.toNat_lt
  rw [OneLine, hexDigits, String.toList_ofList, List.mem_cons, List.mem_singleton, not_or]
  exact ⟨digits _ (by omega), digits _ (by omega)⟩

theorem oneLine_bytesText (bs : List UInt8) : OneLine (bytesText bs) := by
  have sep : OneLine ", " := by decide
  refine .append (.append (by decide) (sep.intercalate ?_)) (by decide)
  intro t ht
  obtain ⟨b, _, rfl⟩ := List.mem_map.mp ht
  exact oneLine_hexDigits b

theorem oneLine_returned {v : Value} (text : OneLine v.optionText) (bs : List UInt8) :
    OneLine (Fate.line v (.returned bs)) :=
  (((text.append (by decide)).append (oneLine_bytesText bs)).append (by decide)).append text

theorem oneLine_onDemand {v : Value} (text : OneLine v.optionText) (cls : OneLine name)
    (h : OnDemand c l name payload fate) : OneLine (fate.line v) := by
  have start : OneLine (v.optionText ++ ": encode failed: ") := text.append (by decide)
  cases h with
  | listed => exact oneLine_returned text _
  | disabled => exact start.append (.append (.append (by decide) cls) (by decide))
  | missing => exact start.append (.append (by decide) cls)

theorem oneLine_samples (onCircle : OnDemand c l Catalog.circle.name circlePayload circle)
    (onSwatch : OnDemand c l Catalog.swatch.name swatchPayload swatch) (bs cs ds : List UInt8) :
    ∀ line ∈ List.zipWith Fate.line samples
      [.returned bs, .returned cs, .returned ds, circle, swatch], OneLine line := by
  have texts : ∀ v ∈ samples, OneLine v.optionText := by decide +kernel
  simp only [samples, List.forall_mem_cons] at texts
  obtain ⟨forNull, forOrigin, forPoint, forCircle, forSwatch, _⟩ := texts
  simp only [samples, List.zipWith_cons_cons, List.forall_mem_cons]
  refine ⟨oneLine_returned forNull bs, oneLine_returned forOrigin cs, oneLine_returned forPoint ds,
    oneLine_onDemand forCircle (by decide) onCircle,
    oneLine_onDemand forSwatch (by decide) onSwatch, nofun⟩

/-- The configuration that an invocation runs under. -/
def Invocation.configuration (i : Invocation) (readFile : String → Except String (List UInt8)) :
    Except ConfigError Config :=
  match i.config? with
  | some path => Config.ofFile path (readFile path)
  | none => .ok defaultConfig

theorem run_of_configuration {readFile : String → Except String (List UInt8)}
    (asked : request args = .run i) (configured : i.configuration readFile = .ok c)
    (built : registry c = .ok r) : run args readFile = .success (output r i.command) := by
  obtain ⟨config?, command⟩ := i
  simp only [run, asked, Invocation.run]
  cases config? with
  | none =>
    cases configured
    simp only [built]
  | some path =>
    have file : Config.ofFile path (readFile path) = .ok c := configured
    simp only [file, built]

/-- A configuration works if there are tags enough for the names that it lists. The layout goes by
the names in order, without repeats. Each sample has a line of its own. Null, the origin and the
point come back under every configuration, the circle and the swatch if their classes are listed and
the fallback is allowed, and then their bytes begin with the tag that the layout gives. -/
theorem samples_of_configuration (c : Config)
    (fits : (Names.ofList c.fallbackClasses).size + 2 ≤ capacity) :
    ∃ r names circle swatch fates, registry c = .ok r ∧
      (names.Pairwise (· < ·) ∧ ∀ name, name ∈ names ↔ name ∈ c.fallbackClasses) ∧
      r.layout = sampleLayout c.allowDefault names ∧
      output r .layout =
        lines [String.ofList ((sampleLayout c.allowDefault names).toJson.pretty 0)] ∧
      OnDemand c r.layout "demo.shapes.Circle" circlePayload circle ∧
      OnDemand c r.layout "demo.Color" swatchPayload swatch ∧
      fates = [.returned [0x00], .returned [0x04], .returned [0x02, 0x06, 0x07], circle, swatch] ∧
      Settles r samples fates r.start ∧
      output r .roundTrip = lines (List.zipWith Fate.line samples fates) ∧
      (∀ line ∈ List.zipWith Fate.line samples fates, '\n' ∉ line.toList) ∧
      ∀ args i readFile, request args = .run i → i.configuration readFile = .ok c →
        run args readFile = .success (output r i.command) := by
  obtain ⟨r, built⟩ := (registry_ok_iff c).mpr fits
  have h := configures_of_ok built
  obtain ⟨circle, swatch, onCircle, onSwatch, foretold⟩ := foretold_samples h
  have settled := foretold.settles h.peers .start
  refine ⟨r, r.names.toList, circle, swatch, _, built, ⟨r.names.sorted, ?_⟩, h.layout_eq, ?_,
    onCircle, onSwatch, rfl, settled, ?_, ?_, ?_⟩
  · intro name
    rw [h.names, Names.mem_ofList]
  · rw [output, h.layout_eq]
  · rw [output, settled.sampleLines_eq]
  · exact oneLine_samples onCircle onSwatch _ _ _
  · intro args i readFile asked configured
    exact run_of_configuration asked configured built

/-- A configuration out of order and with a repeat, which leaves out the circle. -/
def withoutCircle : Config := ⟨true, ["b", "demo.Color", "a", "b"]⟩

theorem printed_without_circle :
    (Names.ofList withoutCircle.fallbackClasses).size + 2 ≤ capacity ∧
    ∃ r, registry withoutCircle = .ok r ∧
      r.layout = sampleLayout true ["a", "b", "demo.Color"] ∧
      output r .roundTrip = lines ["None -> [00] -> None",
        "Some(Point \x7b x: 0, y: 0 \x7d) -> [04] -> Some(Point \x7b x: 0, y: 0 \x7d)",
        "Some(Point \x7b x: 3, y: -4 \x7d) -> [02, 06, 07] -> Some(Point \x7b x: 3, y: -4 \x7d)",
        "Some(Circle \x7b radius: 1.5 \x7d): encode failed: no default codec available for " ++
          "demo.shapes.Circle",
        "Some(Blue) -> [0a, 02] -> Some(Blue)"] := by
  have fits : (Names.ofList withoutCircle.fallbackClasses).size + 2 ≤ capacity := by
    decide +kernel
  obtain ⟨r, names, circle, swatch, fates, built, _, _, _, onCircle, onSwatch, told, _, printed,
    _⟩ := samples_of_configuration withoutCircle fits
  have layout : (registry withoutCircle).toOption.map Registry.layout =
      some (sampleLayout true ["a", "b", "demo.Color"]) := by
    decide +kernel
  rw [built] at layout
  have listed : r.layout = _ := Option.some.inj layout
  refine ⟨fits, r, built, listed, printed.trans ?_⟩
  rw [listed] at onCircle onSwatch
  cases onCircle with
  | listed _ configured _ => exact absurd configured (by decide)
  | disabled off => cases off
  | missing _ _ =>
    cases onSwatch with
    | @listed t _ _ entry =>
      have tag : t = .ofInt 5 := by simpa [sampleLayout] using entry
      subst tag
      subst told
      decide +kernel
    | disabled off => cases off
    | missing _ absent => exact absurd (by decide) absent

end CommandLine

end TagCodec
