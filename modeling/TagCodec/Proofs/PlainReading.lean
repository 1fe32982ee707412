import TagCodec.Proofs.Answers

namespace TagCodec

open Steps

namespace Steps

def mapState (f : σ → τ) : EStateM.Result ε σ α → EStateM.Result ε τ α
  | .ok a s => .ok a (f s)
  | .error e s => .error e (f s)

theorem mapState_leaving (f : σ → τ) (s : σ) (x : Except ε α) :
    mapState f (leaving s x) = leaving (f s) x := by
  cases x <;> rfl

end Steps

/-- A decoder for a registry that keeps nothing. -/
structure Reader where
  input : Cursor
  fresh : Nat
  /-- The lookups made so far. -/
  calls : List Query

abbrev Reading (α : Type) := EStateM CodingError Reader α

/-- The decoder in the place of a reader whose lookups began with this memo. -/
def Reader.decoder (p : Reader) (r : Registry) (depth : Nat) (m : Memo) : Decoder :=
  ⟨p.input, depth, p.fresh, r.heard p.calls m⟩

namespace Reading

/-- A step that makes no lookup. -/
def step (x : Decode α) : Reading α := fun p =>
  mapState (fun s => { p with input := s.input, fresh := s.fresh })
    (x ⟨p.input, 0, p.fresh, .empty⟩)

def ask (r : Registry) (made : String → Option Format) (q : Query) : Reading Binding := fun p =>
  leaving { p with calls := p.calls ++ [q] } ((r.answer made q).mapError .noCodec)

end Reading

/-- Only the sides of a pair are values of their own. -/
def Format.plainRead (f : Format) (side : Reading Value) : Reading Value :=
  match f with
  | pair => do
    let left ← side
    let right ← side
    return .pair (← .step Decode.allocate) left right
  | f => .step (f.read (return .null))

/-- A format other than that of pairs reads no values of their own. -/
theorem Format.read_alone {f : Format} (h : f ≠ .pair) (side : Decode Value)
    (plain : Reading Value) :
    f.read side = f.read (return .null) ∧ f.plainRead plain = .step (f.read (return .null)) := by
  cases f with
  | pair => exact absurd rfl h
  | _ => exact ⟨rfl, rfl⟩

namespace Registry

def plainAnnounce (r : Registry) (made : String → Option Format) (t : Tag) : Reading Announced :=
  if t.isNull then pure (.value .null)
  else if t.isBackReference then throw (.backReference t)
  else
    match r.constantAt? t with
    | some v => pure (.value v)
    | none => Reading.ask r made (.byTag t) >>= fun b => pure (.payload b.format)

def plainTag (r : Registry) (made : String → Option Format) : Reading Announced :=
  .step (Decode.field Cursor.tag) >>= r.plainAnnounce made

def plainRead (r : Registry) (made : String → Option Format) : (room : Nat) → Reading Value
  | 0 => do
    match ← r.plainTag made with
    | .value v => return v
    | .payload _ => throw (.tooDeep nestingLimit)
  | room + 1 => do
    match ← r.plainTag made with
    | .value v => return v
    | .payload f => f.plainRead (r.plainRead made room)

/-- Resolver and factory count only through what comes of each name. -/
theorem plainRead_under (r : Registry) (b : Fallback) (made : String → Option Format)
    (room : Nat) : (r.under b).plainRead made room = r.plainRead made room := by
  induction room with
  | zero => rfl
  | succ room ih =>
    simp only [plainRead, ih]
    rfl

end Registry

namespace Decode

theorem lookup_leaving {l : Lookup α} {s : Decoder} (h : l s.memo = leaving m x) :
    lookup l s = leaving { s with memo := m } (x.mapError .noCodec) := by
  unfold lookup
  rw [h]
  cases x <;> rfl

/-- The memo and the depth are neither looked at nor changed. -/
def Aside (x : Decode α) : Prop := ∀ s depth m,
  x { s with depth := depth, memo := m } =
    mapState (fun t => { t with depth := depth, memo := m }) (x s)

theorem aside_field (read : Read α) : Aside (field read) := by
  intro s depth m
  unfold field
  cases read s.input <;> rfl

theorem closed_aside : Closed Aside where
  pure _ _ _ _ := rfl
  throw _ _ _ _ _ _ := rfl
  bind hx hf := by
    rename_i x f
    intro s depth m
    have first := hx s depth m
    cases hr : x s with
    | ok a t =>
      rw [hr] at first
      rw [bind_of_ok first, bind_of_ok hr]
      exact hf a t depth m
    | error e t =>
      rw [hr] at first
      rw [bind_of_error first, bind_of_error hr]
      rfl
  varint := aside_field _
  sint32 := aside_field _
  bytes := aside_field _
  text := aside_field _
  allocate _ _ _ := rfl

/-- A decoder does what a reader in its place does, if the same comes of each name. -/
def Follows (r : Registry) (made : String → Option Format) (x : Decode α) (y : Reading α) : Prop :=
  ∀ p depth m, r.fallback.settled m = made →
    x (p.decoder r depth m) = mapState (·.decoder r depth m) (y p)

namespace Follows

variable {r : Registry} {made : String → Option Format}

theorem pure (a : α) : Follows r made (pure a) (pure a) := fun _ _ _ _ => rfl

theorem throw (e : CodingError) : Follows r made (throw e : Decode α) (throw e) :=
  fun _ _ _ _ => rfl

theorem bind {x : Decode α} {y : Reading α} {f : α → Decode β} {g : α → Reading β}
    (first : Follows r made x y) (second : ∀ a, Follows r made (f a) (g a)) :
    Follows r made (x >>= f) (y >>= g) := by
  intro p depth m settled
  have here := first p depth m settled
  cases hy : y p with
  | ok a q =>
    rw [hy] at here
    rw [bind_of_ok here, bind_of_ok hy]
    exact second a q depth m settled
  | error e q =>
    rw [hy] at here
    rw [bind_of_error here, bind_of_error hy]
    rfl

theorem step {x : Decode α} (h : Aside x) : Follows r made x (.step x) := by
  intro p depth m _
  refine (h ⟨p.input, 0, p.fresh, .empty⟩ depth (r.heard p.calls m)).trans ?_
  unfold Reading.step
  cases x ⟨p.input, 0, p.fresh, .empty⟩ <;> rfl

theorem ask (t : Tag) : Follows r made (lookup (r.resolveTag t)) (.ask r made (.byTag t)) := by
  intro p depth m settled
  have asked := r.ask_eq (.byTag t) (r.heard p.calls m)
  rw [r.settled_heard, settled] at asked
  unfold Reading.ask
  rw [lookup_leaving asked, mapState_leaving]
  simp only [Reader.decoder, r.heard_append]
  rfl

theorem deeper {x : Decode α} {y : Reading α} (h : Follows r made x y) :
    Follows r made (deeper x) y := by
  intro p depth m settled
  have inner := h p (depth + 1) m settled
  unfold Decode.deeper
  simp only [Reader.decoder] at inner ⊢
  rw [inner]
  cases y p <;> rfl

theorem read {side : Decode Value} {plain : Reading Value} (h : Follows r made side plain)
    (f : Format) : Follows r made (f.read side) (f.plainRead plain) := by
  by_cases pair : f = .pair
  · subst pair
    apply h.bind
    intro left
    apply h.bind
    intro right
    exact (step closed_aside.allocate).bind fun addr => .pure _
  · obtain ⟨alone, plainly⟩ := Format.read_alone pair side plain
    rw [alone, plainly]
    exact step (closed_aside.read (closed_aside.pure Value.null) f)

theorem announce (t : Tag) : Follows r made (r.announce t) (r.plainAnnounce made t) := by
  unfold Registry.announce Registry.plainAnnounce
  split
  · exact .pure _
  · split
    · exact .throw _
    · cases r.constantAt? t with
      | some v => exact .pure _
      | none => exact (ask t).bind fun b => .pure _

end Follows

end Decode

namespace Registry

variable {made : String → Option Format}

theorem readWithin_follows (r : Registry) (room : Nat) :
    Decode.Follows r made (r.readWithin room) (r.plainRead made room) := by
  have tag : Decode.Follows r made r.readTag (r.plainTag made) :=
    (Decode.Follows.step (Decode.aside_field _)).bind .announce
  induction room with
  | zero =>
    apply tag.bind
    intro a
    cases a with
    | value v => exact .pure v
    | payload f => exact .throw _
  | succ room ih =>
    apply tag.bind
    intro a
    cases a with
    | value v => exact .pure v
    | payload f => exact (ih.read f).deeper

end Registry

end TagCodec
