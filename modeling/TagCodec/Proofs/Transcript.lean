import TagCodec.Proofs.Answers
import TagCodec.Proofs.Writing

namespace TagCodec

open Steps

/-- One after the other. Nothing follows a fault. -/
def Payload.followedBy (p q : Payload) : Payload :=
  match p.fault? with
  | some _ => p
  | none => ⟨p.items ++ q.items, q.fault?⟩

theorem Payload.followedBy_assoc (p q o : Payload) :
    (p.followedBy q).followedBy o = p.followedBy (q.followedBy o) := by
  obtain ⟨items, fault?⟩ := p
  obtain ⟨items', fault'?⟩ := q
  cases fault? with
  | some e => rfl
  | none =>
    cases fault'? with
    | some e => rfl
    | none => simp [followedBy]

@[simp] theorem Payload.followedBy_empty (p : Payload) : p.followedBy (.complete []) = p := by
  obtain ⟨items, fault?⟩ := p
  cases fault? <;> simp [followedBy, complete]

structure Transcript extends Payload where
  calls : List Query

def Payload.outcome (p : Payload) : Except CodingError Unit :=
  match p.fault? with
  | some e => .error e
  | none => .ok ()

namespace Transcript

def followedBy (x y : Transcript) : Transcript :=
  match x.fault? with
  | some _ => x
  | none => ⟨⟨x.items ++ y.items, y.fault?⟩, x.calls ++ y.calls⟩

theorem toPayload_followedBy (x y : Transcript) :
    (x.followedBy y).toPayload = x.toPayload.followedBy y.toPayload := by
  unfold followedBy Payload.followedBy
  cases x.fault? <;> rfl

theorem complete_followedBy {is js : List Item} {x y : Transcript}
    (hx : x.toPayload = .complete is) (hy : y.toPayload = .complete js) :
    (x.followedBy y).toPayload = .complete (is ++ js) := by
  rw [toPayload_followedBy, hx, hy]
  rfl

def bare (t : Tag) : Transcript := ⟨.complete [.tag t], []⟩

def play (r : Registry) (x : Transcript) : Encode Unit := fun s =>
  leaving ⟨x.items.foldl Output.put s.out, r.heard x.calls s.memo⟩ x.outcome

theorem play_of_fault {x : Transcript} (h : x.fault? = some e) (r : Registry) (s : Encoder) :
    x.play r s = .error e ⟨x.items.foldl Output.put s.out, r.heard x.calls s.memo⟩ := by
  simp only [play, Payload.outcome, h, leaving]

theorem play_of_complete {x : Transcript} (h : x.fault? = none) (r : Registry) (s : Encoder) :
    x.play r s = .ok () ⟨x.items.foldl Output.put s.out, r.heard x.calls s.memo⟩ := by
  simp only [play, Payload.outcome, h, leaving]

theorem play_followedBy (r : Registry) (x y : Transcript) (s : Encoder) :
    (x.followedBy y).play r s = (x.play r >>= fun _ => y.play r) s := by
  unfold followedBy
  cases hx : x.fault? with
  | some e => rw [bind_of_error (play_of_fault hx r s), play_of_fault hx]
  | none =>
    rw [bind_of_ok (play_of_complete hx r s)]
    simp only [play, List.foldl_append, r.heard_append]
    rfl

theorem settled_play {x : Transcript} {r : Registry} (h : x.play r s = .ok u t) :
    r.fallback.settled t.memo = r.fallback.settled s.memo := by
  have same : t.memo = r.heard x.calls s.memo := by
    unfold play at h
    cases hx : x.outcome <;> rw [hx] at h <;> cases h
    rfl
  rw [same, r.settled_heard]

end Transcript

theorem Payload.write_eq (p : Payload) (r : Registry) (s : Encoder) :
    p.write s = Transcript.play r ⟨p, []⟩ s := by
  apply (bind_of_ok (Encode.emit_foldl p.items s)).trans
  unfold Transcript.play Payload.outcome
  cases p.fault? <;> rfl

/-- What follows the tag of a pair, given what is told of its sides. -/
def Format.pairTranscript (f : Format) (sides : Transcript) : Transcript :=
  match f with
  | pair => sides
  | f => ⟨⟨[], some (f.mismatch Catalog.pair)⟩, []⟩

theorem Format.writePair_eq {r : Registry} {sides : Encode Unit} {x : Transcript} {s : Encoder}
    (same : sides s = x.play r s) (f : Format) :
    f.writePair sides s = (f.pairTranscript x).play r s := by
  cases f with
  | pair => exact same
  | _ => rfl

namespace Registry

/-- A value of the class that is no constant: the tag of the codec found, then the payload. -/
def coded (r : Registry) (made : String → Option Format) (c : Class)
    (payload : Format → Transcript) : Transcript :=
  match r.answer made (.byClass c) with
  | .ok b => Transcript.followedBy ⟨.complete [.tag b.tag], [.byClass c]⟩ (payload b.format)
  | .error e => ⟨⟨[], some (.noCodec e)⟩, [.byClass c]⟩

theorem toPayload_coded (r : Registry) (made : String → Option Format) (c : Class)
    (payload : Format → Transcript) : (r.coded made c payload).toPayload =
      match r.answer made (.byClass c) with
      | .ok b => Payload.followedBy (.complete [.tag b.tag]) (payload b.format).toPayload
      | .error e => ⟨[], some (.noCodec e)⟩ := by
  unfold coded
  cases r.answer made (.byClass c) with
  | ok b => exact Transcript.toPayload_followedBy _ _
  | error e => rfl

theorem complete_coded {r : Registry} {made : String → Option Format} {cls : Class}
    (found : r.answer made (.byClass cls) = .ok b) {payload : Format → Transcript}
    (complete : (payload b.format).toPayload = .complete items) :
    (r.coded made cls payload).toPayload = .complete (.tag b.tag :: items) := by
  rw [toPayload_coded, found]
  exact congrArg (Payload.followedBy _) complete

/-- What writing a value does, given what comes of each name. -/
def transcript (r : Registry) (made : String → Option Format) : Value → Transcript
  | .null => .bare .null
  | .leaf addr x =>
    match r.constantTag? (.leaf addr x) with
    | some t => .bare t
    | none => r.coded made x.cls fun f => ⟨f.payload x, []⟩
  | .pair addr left right =>
    match r.constantTag? (.pair addr left right) with
    | some t => .bare t
    | none => r.coded made Catalog.pair fun f =>
      f.pairTranscript ((r.transcript made left).followedBy (r.transcript made right))

theorem transcript_of_constant {r : Registry} {v : Value} (object : v ≠ .null)
    (registered : r.constantTag? v = some t) (made : String → Option Format) :
    r.transcript made v = .bare t := by
  cases v with
  | null => exact absurd rfl object
  | _ => simp only [transcript, registered]

/-- Resolver and factory count only through what comes of each name. -/
theorem transcript_under (r : Registry) (b : Fallback) (made : String → Option Format)
    (v : Value) : (r.under b).transcript made v = r.transcript made v := by
  induction v with
  | null => rfl
  | leaf addr x => rfl
  | pair addr left right ihl ihr =>
    simp only [transcript, ihl, ihr]
    rfl

variable {r : Registry}

theorem lookup_eq (r : Registry) (c : Class) (s : Encoder) :
    Encode.lookup (r.resolve c) s =
      match r.answer (r.fallback.settled s.memo) (.byClass c) with
      | .ok b => .ok b { s with memo := r.heard [.byClass c] s.memo }
      | .error e => .error (.noCodec e) { s with memo := r.heard [.byClass c] s.memo } := by
  have asked := r.ask_eq (.byClass c) s.memo
  simp only [ask] at asked
  unfold Encode.lookup
  rw [asked]
  cases r.answer (r.fallback.settled s.memo) (.byClass c) <;> rfl

/-- The tag of a value that is no constant, and then its payload, if the payload does what is told
of it in every state in which the same comes of each name. -/
theorem writeTag_coded {v : Value} (object : v.cls? = some c) (other : r.constantTag? v = none)
    {payload : Format → Transcript} {body : Format → Encode Unit} {s : Encoder}
    (same : ∀ f t, r.fallback.settled t.memo = r.fallback.settled s.memo →
      body f t = (payload f).play r t) :
    (r.writeTag v >>= fun f? => f?.forM body) s =
      (r.coded (r.fallback.settled s.memo) c payload).play r s := by
  have tag := r.lookup_eq c s
  have start : r.writeTag v s = (Encode.lookup (r.resolve c) >>= fun b => do
      Encode.emit (.tag b.tag)
      return some b.format) s := by
    simp only [writeTag, object, other]
  unfold coded
  cases found : r.answer (r.fallback.settled s.memo) (.byClass c) with
  | error e =>
    rw [found] at tag
    exact bind_of_error (start.trans (bind_of_error tag))
  | ok b =>
    rw [found] at tag
    apply (bind_of_ok (start.trans (bind_of_ok tag))).trans
    rw [Transcript.play_followedBy]
    apply same
    exact r.settled_heard [.byClass c] s.memo

/-- A write does what is told of it, whatever was looked up before, if the same comes of each
name. -/
theorem write_eq (r : Registry) (v : Value) (s : Encoder) :
    r.write v s = (r.transcript (r.fallback.settled s.memo) v).play r s := by
  induction v generalizing s with
  | null => rfl
  | leaf addr x =>
    unfold transcript
    cases registered : r.constantTag? (.leaf addr x) with
    | some t => exact write_constant (by simp) registered s
    | none => exact writeTag_coded rfl registered fun f t _ => (f.payload x).write_eq r t
  | pair addr left right ihl ihr =>
    unfold transcript
    cases registered : r.constantTag? (.pair addr left right) with
    | some t => exact write_constant (by simp) registered s
    | none =>
      refine writeTag_coded rfl registered fun f t settled => f.writePair_eq ?_
      rw [Transcript.play_followedBy]
      refine Steps.bind_congr (settled ▸ ihl t) fun _ u written => ?_
      -- the left side settles nothing anew
      have kept := Transcript.settled_play ((ihl t).symm.trans written)
      rw [ihr u, kept, settled]

end Registry

end TagCodec
