import TagCodec.Proofs.PlainReading
import TagCodec.Proofs.Progress

namespace TagCodec

open Steps

inductive Moment
  /-- The reader is called for a value. -/
  | called
  /-- A codec is about to be called. -/
  | opens (f : Format)
  /-- The call has been counted, and the codec takes over. -/
  | opened (f : Format)
deriving DecidableEq

structure Note where
  moment : Moment
  state : Decoder
deriving DecidableEq

/-- A decoder with the notes made so far. -/
structure Watched where
  decoder : Decoder
  log : List Note
deriving DecidableEq

/-- Counts the call of a codec. -/
def Watched.enter (w : Watched) (f : Format) : Watched :=
  let inside := { w.decoder with depth := w.decoder.depth + 1 }
  ⟨inside, w.log ++ [⟨.opens f, w.decoder⟩, ⟨.opened f, inside⟩]⟩

def Watched.leave (w : Watched) : Watched :=
  { w with decoder.depth := w.decoder.depth - 1 }

abbrev Watch (α : Type) := EStateM CodingError Watched α

namespace Watch

def note (moment : Moment) : Watch Unit :=
  modify fun w => { w with log := w.log ++ [⟨moment, w.decoder⟩] }

/-- A step that calls no reader. -/
def step (x : Decode α) : Watch α := fun w => mapState (⟨·, w.log⟩) (x w.decoder)

def deeper (f : Format) (body : Watch α) : Watch α := fun w =>
  mapState Watched.leave (body (w.enter f))

end Watch

def Format.watch (f : Format) (side : Watch Value) : Watch Value :=
  match f with
  | pair => do
    let left ← side
    let right ← side
    return .pair (← .step Decode.allocate) left right
  | f => .step (f.read (return .null))

namespace Registry

def watchTag (r : Registry) : Watch Announced := do
  Watch.note .called
  Watch.step r.readTag

def watchWithin (r : Registry) : (room : Nat) → Watch Value
  | 0 => do
    match ← r.watchTag with
    | .value v => return v
    | .payload _ => throw (.tooDeep nestingLimit)
  | room + 1 => do
    match ← r.watchTag with
    | .value v => return v
    | .payload f => Watch.deeper f (f.watch (r.watchWithin room))

def watch (r : Registry) : Watch Value := do
  r.watchWithin (nestingLimit - (← get).decoder.depth)

end Registry

namespace Watch

/-- Without its notes, a watched run is a run. -/
def Erases (x : Watch α) (y : Decode α) : Prop :=
  ∀ w, mapState Watched.decoder (x w) = y w.decoder

namespace Erases

theorem pure (a : α) : Erases (pure a) (pure a) := fun _ => rfl

theorem throw (e : CodingError) : Erases (throw e : Watch α) (throw e) := fun _ => rfl

theorem bind {x : Watch α} {y : Decode α} {f : α → Watch β} {g : α → Decode β}
    (first : Erases x y) (second : ∀ a, Erases (f a) (g a)) : Erases (x >>= f) (y >>= g) := by
  intro w
  have here := first w
  cases hx : x w with
  | ok a u =>
    rw [hx] at here
    rw [bind_of_ok hx, bind_of_ok here.symm]
    exact second a u
  | error e u =>
    rw [hx] at here
    rw [bind_of_error hx, bind_of_error here.symm]
    rfl

theorem step (x : Decode α) : Erases (.step x) x := by
  intro w
  unfold Watch.step
  cases x w.decoder <;> rfl

theorem note {x : Watch α} {y : Decode α} (h : Erases x y) (moment : Moment) :
    Erases (Watch.note moment >>= fun _ => x) y := fun _ => h _

theorem deeper {x : Watch α} {y : Decode α} (h : Erases x y) (f : Format) :
    Erases (.deeper f x) (.deeper y) := by
  intro w
  have inner : mapState Watched.decoder (x (w.enter f)) =
      y { w.decoder with depth := w.decoder.depth + 1 } := h _
  unfold Watch.deeper Decode.deeper
  rw [← inner]
  cases x (w.enter f) <;> rfl

theorem read {side : Watch Value} {plain : Decode Value} (h : Erases side plain) (f : Format) :
    Erases (f.watch side) (f.read plain) := by
  cases f with
  | pair => exact h.bind fun left => h.bind fun right => (step _).bind fun addr => .pure _
  | _ => exact step _

end Erases

end Watch

/-- Watching changes nothing of what is read, nor of the state behind it. -/
theorem Registry.watchWithin_erases (r : Registry) (room : Nat) :
    Watch.Erases (r.watchWithin room) (r.readWithin room) := by
  have tag : Watch.Erases r.watchTag r.readTag := (Watch.Erases.step r.readTag).note .called
  induction room with
  | zero =>
    apply tag.bind
    intro a
    cases a with
    | value v => exact .pure v
    | payload f => exact .throw _
  | succ room ih =>
    apply tag.bind
    intro a
    cases a with
    | value v => exact .pure v
    | payload f => exact (ih.read f).deeper f

namespace Decode

/-- The step never finds that values are nested too deep. -/
def Shallow (x : Decode α) : Prop := ∀ s n t, x s ≠ .error (.tooDeep n) t

namespace Shallow

theorem pure (a : α) : Shallow (pure a) := nofun

theorem throw (h : ∀ n, e ≠ .tooDeep n) : Shallow (throw e : Decode α) := by
  intro s n t thrown
  cases thrown
  exact h n rfl

theorem bind {x : Decode α} {f : α → Decode β} (hx : Shallow x) (hf : ∀ a, Shallow (f a)) :
    Shallow (x >>= f) := by
  intro s n t failed
  rcases bind_eq_error.mp failed with first | ⟨a, u, _, second⟩
  · exact hx s n t first
  · exact hf a u n t second

theorem field (read : Read α) : Shallow (field read) := by
  intro s n t failed
  obtain ⟨f, c, _, ⟨⟩, _⟩ := field_eq_error.mp failed

theorem lookup (l : Lookup α) : Shallow (lookup l) := by
  intro s n t failed
  obtain ⟨f, m, _, ⟨⟩, _⟩ := lookup_eq_error.mp failed

end Shallow

theorem closed_shallow : Closed Shallow where
  pure := .pure
  throw _ _ other := .throw other
  bind := .bind
  varint := .field _
  sint32 := .field _
  bytes := .field _
  text := .field _
  allocate := nofun

end Decode

namespace Note

/-- The depth is within the limit, and a codec is called only below it. -/
def Within (n : Note) : Prop :=
  n.state.depth ≤ nestingLimit ∧ ∀ f, n.moment = .opens f → n.state.depth < nestingLimit

/-- How many calls of the reader were noted. -/
def calls (log : List Note) : Nat := log.countP fun n => n.moment = .called

theorem calls_append (log more : List Note) : calls (log ++ more) = calls log + calls more :=
  List.countP_append

end Note

/-- From one state to another. Each call was paid for with a byte, but for some to spare. -/
structure Watched.Run (spare : Nat) (w u : Watched) : Prop where
  depth : u.decoder.depth = w.decoder.depth
  within : (∀ n ∈ w.log, n.Within) → ∀ n ∈ u.log, n.Within
  calls : Note.calls u.log + w.decoder.input.pos ≤
    Note.calls w.log + u.decoder.input.pos + spare

theorem Watched.Run.refl (spare : Nat) (w : Watched) : w.Run spare w :=
  ⟨rfl, id, Nat.le_add_right _ _⟩

theorem Watched.Run.trans {w u v : Watched} (h : w.Run 0 u) (g : u.Run spare v) :
    w.Run spare v := by
  refine ⟨g.depth.trans h.depth, g.within ∘ h.within, ?_⟩
  have := h.calls
  have := g.calls
  omega

/-- The last call was made at the limit and met the tag of a codec. Nothing was read behind the
tag. -/
def Registry.Refused (r : Registry) (limit : Nat) (w : Watched) : Prop :=
  limit = nestingLimit ∧ ∃ before s t s' b, w.log = before ++ [⟨.called, s⟩] ∧
    s.depth = nestingLimit ∧ Decode.field Cursor.tag s = .ok t s' ∧
    r.resolveTag t s'.memo = .ok b w.decoder.memo ∧ w.decoder.input = s'.input

namespace Watch

/-- What a run from this depth can come to. Only a failed one may have called the reader for a
value of which no byte was there. -/
structure Bounded (r : Registry) (depth : Nat) (x : Watch α) : Prop where
  ok : ∀ {w a u}, w.decoder.depth = depth → x w = .ok a u → w.Run 0 u
  error : ∀ {w e u}, w.decoder.depth = depth → x w = .error e u → w.Run 1 u
  refused : ∀ {w n u}, w.decoder.depth = depth → x w = .error (.tooDeep n) u → r.Refused n u

namespace Bounded

variable {r : Registry} {depth : Nat}

theorem pure (a : α) : Bounded r depth (pure a) where
  ok _ h := by
    cases h
    exact .refl 0 _
  error _ h := nomatch h
  refused _ h := nomatch h

theorem bind {x : Watch α} {f : α → Watch β} (hx : Bounded r depth x)
    (hf : ∀ a, Bounded r depth (f a)) : Bounded r depth (x >>= f) where
  ok here h := by
    obtain ⟨a, u, first, second⟩ := bind_eq_ok.mp h
    have run := hx.ok here first
    exact run.trans ((hf a).ok (run.depth.trans here) second)
  error here h := by
    rcases bind_eq_error.mp h with first | ⟨a, u, first, second⟩
    · exact hx.error here first
    · have run := hx.ok here first
      exact run.trans ((hf a).error (run.depth.trans here) second)
  refused here h := by
    rcases bind_eq_error.mp h with first | ⟨a, u, first, second⟩
    · exact hx.refused here first
    · exact (hf a).refused ((hx.ok here first).depth.trans here) second

theorem step {x : Decode α} (onward : Keeps Decode.Onward x) (shallow : Decode.Shallow x) :
    Bounded r depth (.step x) where
  ok {w a u} _ h := by
    unfold Watch.step at h
    cases hx : x w.decoder <;> rw [hx] at h <;> cases h
    obtain ⟨pos, same⟩ := onward.ok hx
    exact ⟨same, id, Nat.add_le_add_left pos _⟩
  error {w e u} _ h := by
    unfold Watch.step at h
    cases hx : x w.decoder <;> rw [hx] at h <;> cases h
    obtain ⟨pos, same⟩ := onward.error hx
    exact ⟨same, id, Nat.le_succ_of_le (Nat.add_le_add_left pos _)⟩
  refused {w n u} _ h := by
    unfold Watch.step at h
    cases hx : x w.decoder <;> rw [hx] at h <;> cases h
    exact absurd hx (shallow _ _ _)

theorem read {side : Watch Value} (h : Bounded r depth side) (f : Format) :
    Bounded r depth (f.watch side) := by
  -- with sides that never fail, a payload has no steps but its own
  have alone : Bounded r depth (.step (f.read (return .null))) :=
    step (Decode.closed_onward.read (Decode.closed_onward.pure Value.null) f)
      (Decode.closed_shallow.read (Decode.closed_shallow.pure Value.null) f)
  have addr : Bounded r depth (.step Decode.allocate) :=
    step Decode.closed_onward.allocate nofun
  cases f with
  | pair => exact h.bind fun left => h.bind fun right => addr.bind fun _ => pure _
  | _ => exact alone

theorem around {w u : Watched} (below : w.decoder.depth < nestingLimit)
    (run : (w.enter f).Run spare u) : w.Run spare u.leave := by
  obtain ⟨same, within, calls⟩ := run
  refine ⟨Nat.sub_eq_of_eq_add same, fun old => within ?_, ?_⟩
  · intro n hn
    rcases List.mem_append.mp hn with hn | hn
    · exact old n hn
    · rcases List.mem_cons.mp hn with rfl | hn
      · exact ⟨Nat.le_of_lt below, fun _ _ => below⟩
      · cases List.mem_singleton.mp hn
        exact ⟨below, nofun⟩
  · have entered : Note.calls (w.enter f).log = Note.calls w.log := Note.calls_append ..
    rw [entered] at calls
    exact calls

/-- A codec that is called below the limit reaches the limit at most. -/
theorem deeper {x : Watch α} (below : depth < nestingLimit) (h : Bounded r (depth + 1) x)
    (f : Format) : Bounded r depth (.deeper f x) where
  ok {w a u} here h' := by
    unfold Watch.deeper at h'
    cases hx : x (w.enter f) <;> rw [hx] at h' <;> cases h'
    exact around (here ▸ below) (h.ok (congrArg (· + 1) here) hx)
  error {w e u} here h' := by
    unfold Watch.deeper at h'
    cases hx : x (w.enter f) <;> rw [hx] at h' <;> cases h'
    exact around (here ▸ below) (h.error (congrArg (· + 1) here) hx)
  refused {w n u} here h' := by
    unfold Watch.deeper at h'
    cases hx : x (w.enter f) <;> rw [hx] at h' <;> cases h'
    have refused := h.refused (congrArg (· + 1) here) hx
    exact refused

end Bounded

end Watch

namespace Registry

variable {r : Registry}

theorem readTag_shallow (r : Registry) : Decode.Shallow r.readTag :=
  readTag_closed Decode.closed_shallow (.field _) fun _ => .lookup _

/-- The call is noted before its tag is read. -/
theorem watchTag_run (r : Registry) (w : Watched) :
    r.watchTag w = mapState (⟨·, w.log ++ [⟨.called, w.decoder⟩]⟩) (r.readTag w.decoder) :=
  rfl

/-- A call is paid for with a byte of its tag, if there is one. -/
theorem watchTag_bounded {depth : Nat} (within : depth ≤ nestingLimit) :
    Watch.Bounded r depth r.watchTag := by
  have noted {w : Watched} (here : w.decoder.depth = depth) (old : ∀ n ∈ w.log, n.Within) :
      ∀ n ∈ w.log ++ [⟨.called, w.decoder⟩], n.Within := by
    intro n hn
    rcases List.mem_append.mp hn with hn | hn
    · exact old n hn
    · cases List.mem_singleton.mp hn
      exact ⟨here ▸ within, nofun⟩
  have counted (w : Watched) :
      Note.calls (w.log ++ [⟨.called, w.decoder⟩]) = Note.calls w.log + 1 := by
    rw [Note.calls_append]
    rfl
  constructor
  · intro w a u here h
    rw [watchTag_run] at h
    cases hx : r.readTag w.decoder <;> rw [hx] at h <;> cases h
    have advanced := readTag_advances hx
    refine ⟨(r.readTag_sameDepth).ok hx, noted here, ?_⟩
    rw [counted]
    dsimp only
    omega
  · intro w e u here h
    rw [watchTag_run] at h
    cases hx : r.readTag w.decoder <;> rw [hx] at h <;> cases h
    obtain ⟨onward, same⟩ := (r.readTag_onward).error hx
    refine ⟨same, noted here, ?_⟩
    rw [counted]
    dsimp only
    omega
  · intro w n u here h
    rw [watchTag_run] at h
    cases hx : r.readTag w.decoder <;> rw [hx] at h <;> cases h
    exact absurd hx (r.readTag_shallow _ _ _)

/-- A codec that is announced at the limit is not called. -/
theorem refused_of_watchTag {w u : Watched} (limit : w.decoder.depth = nestingLimit)
    (h : r.watchTag w = .ok (.payload f) u) : r.Refused nestingLimit u := by
  rw [watchTag_run] at h
  cases hx : r.readTag w.decoder <;> rw [hx] at h <;> cases h
  obtain ⟨t, s', b, m, tag, found, _, rfl⟩ := readTag_eq_payload hx
  exact ⟨rfl, w.log, w.decoder, t, s', b, rfl, limit, tag, found, rfl⟩

theorem watchWithin_bounded (r : Registry) {room depth : Nat} (h : depth + room = nestingLimit) :
    Watch.Bounded r depth (r.watchWithin room) := by
  have tag : Watch.Bounded r depth r.watchTag := watchTag_bounded (by omega)
  induction room generalizing depth with
  | zero =>
    constructor
    · intro w v u here run
      obtain ⟨a, u, first, last⟩ := bind_eq_ok.mp run
      cases a <;> cases last
      exact tag.ok here first
    · intro w e u here run
      rcases bind_eq_error.mp run with first | ⟨a, u, first, last⟩
      · exact tag.error here first
      · cases a <;> cases last
        exact (tag.ok here first).trans (.refl 1 _)
    · intro w n u here run
      rcases bind_eq_error.mp run with first | ⟨a, u, first, last⟩
      · exact tag.refused here first
      · cases a <;> cases last
        exact refused_of_watchTag (here.trans h) first
  | succ room ih =>
    apply tag.bind
    intro a
    cases a with
    | value v => exact .pure v
    | payload f =>
      have inside : Watch.Bounded r (depth + 1) (r.watchWithin room) :=
        ih (by omega) (watchTag_bounded (by omega))
      exact (inside.read f).deeper (by omega) f

/-- One call of a reader that looks at the depth only when it has to. -/
def call (r : Registry) (reader : Decode Value) : Decode Value := do
  match ← r.readTag with
  | .value v => return v
  | .payload f =>
    if (← get).depth < nestingLimit then Decode.deeper (f.read reader)
    else throw (.tooDeep nestingLimit)

/-- A call with room for more payloads, given a reader that does the calls at greater depth. -/
theorem readWithin_eq_call {side : Decode Value} {room : Nat} {s : Decoder}
    (h : s.depth + room = nestingLimit)
    (agree : ∀ k u, u.depth = s.depth + 1 → u.depth + k = nestingLimit →
      side u = r.readWithin k u) : r.readWithin room s = r.call side s := by
  cases room with
  | zero =>
    refine bind_congr (x := r.readTag) rfl fun a t tag => ?_
    cases a with
    | value v => rfl
    | payload f =>
      have depth : t.depth = s.depth := r.readTag_sameDepth.ok tag
      refine Eq.trans ?_ (bind_of_ok (get_run t)).symm
      rw [if_neg (by omega)]
  | succ room =>
    refine bind_congr (x := r.readTag) rfl fun a t tag => ?_
    cases a with
    | value v => rfl
    | payload f =>
      have depth : t.depth = s.depth := r.readTag_sameDepth.ok tag
      have inner : f.read (r.readWithin room) { t with depth := t.depth + 1 } =
          f.read side { t with depth := t.depth + 1 } := by
        refine f.read_congr (r.readWithin_sameDepth room) _ fun u hu => ?_
        change u.depth = t.depth + 1 at hu
        exact (agree room u (by omega) (by omega)).symm
      refine Eq.trans ?_ (bind_of_ok (get_run t)).symm
      rw [if_pos (by omega)]
      simp only [Decode.deeper, inner]

theorem read_eq_call {s : Decoder} (within : s.depth ≤ nestingLimit) :
    r.read s = r.call r.read s := by
  rw [read_eq (nestingLimit - s.depth) (by omega)]
  exact readWithin_eq_call (by omega) fun k u _ hu => read_eq k hu

/-- The calls come to an end: nothing else calls itself as a reader does. -/
theorem read_unique {reader : Decode Value}
    (calls : ∀ s, s.depth ≤ nestingLimit → reader s = r.call reader s) {s : Decoder}
    (within : s.depth ≤ nestingLimit) : reader s = r.read s := by
  have agree (room : Nat) : ∀ s, s.depth + room = nestingLimit →
      reader s = r.readWithin room s := by
    induction room with
    | zero =>
      intro s h
      exact (calls s (by omega)).trans (readWithin_eq_call h fun k u _ _ => by omega).symm
    | succ room ih =>
      intro s h
      refine (calls s (by omega)).trans (readWithin_eq_call h fun k u deeper hu => ?_).symm
      obtain rfl : k = room := by omega
      exact ih u hu
  rw [read_eq (nestingLimit - s.depth) (by omega)]
  exact agree _ s (by omega)

/-- A reader that calls itself through the codecs comes to an end on every input, and on every way
out the depth is what it was. On the way it is never beyond the limit, no codec is called at the
limit, and the reader is called at most once more than there are bytes consumed. Only a tag that
leads to a codec, read at the limit, is found to be nested too deep. -/
theorem reading_bounded (r : Registry) {s : Decoder} (within : s.depth ≤ nestingLimit) :
    (r.read s = r.call r.read s ∧ ∀ reader : Decode Value,
      (∀ t, t.depth ≤ nestingLimit → reader t = r.call reader t) → reader s = r.read s) ∧
    (after r.read s).depth = s.depth ∧
    ∃ log, mapState (⟨·, log⟩) (r.read s) = r.watch ⟨s, []⟩ ∧ (∀ n ∈ log, n.Within) ∧
      Note.calls log + s.input.pos ≤ (after r.read s).input.pos + 1 ∧
      ∀ limit t, r.read s = .error (.tooDeep limit) t → r.Refused limit ⟨t, log⟩ := by
  refine ⟨⟨read_eq_call within, fun reader calls => read_unique calls within⟩, ?_, ?_⟩
  · exact r.readWithin_sameDepth (nestingLimit - s.depth) s
  · have bounded : Watch.Bounded r s.depth (r.watchWithin (nestingLimit - s.depth)) :=
      r.watchWithin_bounded (by omega)
    have erased : mapState Watched.decoder (r.watch ⟨s, []⟩) = r.read s :=
      r.watchWithin_erases (nestingLimit - s.depth) ⟨s, []⟩
    have watched : r.watch ⟨s, []⟩ = r.watchWithin (nestingLimit - s.depth) ⟨s, []⟩ := rfl
    refine ⟨(after r.watch ⟨s, []⟩).log, ?_⟩
    cases run : r.watch ⟨s, []⟩ with
    | ok v u =>
      rw [run] at erased
      rw [after_of_ok run, ← erased, after_of_ok erased.symm]
      have came := bounded.ok rfl (watched.symm.trans run)
      refine ⟨rfl, came.within nofun, ?_, fun limit t h => nomatch h⟩
      have := came.calls
      exact Nat.le_succ_of_le (by simpa [Note.calls] using this)
    | error e u =>
      rw [run] at erased
      rw [after_of_error run, ← erased, after_of_error erased.symm]
      have came := bounded.error rfl (watched.symm.trans run)
      refine ⟨rfl, came.within nofun, by simpa [Note.calls] using came.calls, ?_⟩
      rintro limit t ⟨⟩
      exact bounded.refused rfl (watched.symm.trans run)

/-- Room is left for one payload. The pair is the one, and the pair that is its left side is not
opened. -/
theorem refusal_at_the_limit :
    ∃ d r s t log, d = Draft.empty.addCodec ⟨7, .pair⟩ ∧ d.build = .ok r ∧
      s = ⟨.ofList [2, 2, 0], 127, 0, r.start⟩ ∧ s.depth ≤ nestingLimit ∧
      r.read s = .error (.tooDeep nestingLimit) t ∧ t.depth = 127 ∧
      r.watch ⟨s, []⟩ = .error (.tooDeep nestingLimit) ⟨t, log⟩ ∧ (∀ n ∈ log, n.Within) ∧
      Note.calls log ≤ t.input.pos + 1 ∧ r.Refused nestingLimit ⟨t, log⟩ := by
  obtain ⟨r, built⟩ : ∃ r, (Draft.empty.addCodec ⟨7, .pair⟩).build = .ok r := ⟨_, rfl⟩
  have below : 127 ≤ nestingLimit := by decide
  obtain ⟨t, failed⟩ : ∃ t, r.read ⟨.ofList [2, 2, 0], 127, 0, r.start⟩ =
      .error (.tooDeep nestingLimit) t := by
    cases built
    exact ⟨_, rfl⟩
  obtain ⟨_, depth, log, watched, within, calls, refused⟩ :=
    reading_bounded r (s := ⟨.ofList [2, 2, 0], 127, 0, r.start⟩) below
  rw [failed] at watched
  rw [after_of_error failed] at depth calls
  exact ⟨_, r, _, t, log, rfl, built, rfl, below, failed, depth, watched.symm, within, calls,
    refused _ t failed⟩

end Registry

end TagCodec
