import TagCodec.Proofs.Objects
import TagCodec.Proofs.Runs

namespace TagCodec

open Steps

namespace Registry

theorem Sound.settled {r : Registry} (h : r.Sound m) :
    r.fallback.settled m = r.fallback.made := by
  funext name
  unfold Fallback.settled
  cases hc : m.cell? name with
  | none => rfl
  | some cell => exact h name cell hc

theorem Sound.result_resolve {r : Registry} (h : r.Sound m) (c : Class) :
    result (r.resolve c) m = r.answer r.fallback.made (.byClass c) := by
  have asked := r.ask_eq (.byClass c) m
  rw [h.settled] at asked
  exact result_of_leaving asked

theorem Leads.settled {r : Registry} (h : r.Leads r.start m) :
    r.fallback.settled m = r.fallback.made :=
  h.sound.settled

theorem Leads.result_resolve {r : Registry} (h : r.Leads r.start m) (c : Class) :
    result (r.resolve c) m = r.answer r.fallback.made (.byClass c) :=
  h.sound.result_resolve c

/-- A write does what is told of the value alone, whatever was looked up before. -/
theorem write_reached {r : Registry} {m : Memo} (reached : r.Leads r.start m) (v : Value)
    (out : Output) :
    r.write v ⟨out, m⟩ = (r.transcript r.fallback.made v).play r ⟨out, m⟩ := by
  have written := r.write_eq v ⟨out, m⟩
  rw [reached.settled] at written
  exact written

theorem write_of_complete {r : Registry} {m : Memo} (reached : r.Leads r.start m)
    (complete : (r.transcript r.fallback.made v).toPayload = .complete items) (out : Output) :
    ∃ s, r.write v ⟨out, m⟩ = .ok () s ∧
      s.out.toList = out.toList ++ items.flatMap Item.encode := by
  rw [write_reached reached, Transcript.play_of_complete (congrArg Payload.fault? complete)]
  refine ⟨_, rfl, ?_⟩
  rw [Output.toList_foldl_put, congrArg Payload.items complete]
  rfl

theorem encode_of_complete {r : Registry} {m : Memo} (reached : r.Leads r.start m)
    (complete : (r.transcript r.fallback.made v).toPayload = .complete items) :
    ∃ m', r.encode v m = .ok (items.flatMap Item.encode) m' := by
  obtain ⟨s, written, out⟩ := write_of_complete reached complete .empty
  unfold encode
  rw [written]
  dsimp only
  rw [out]
  exact ⟨_, rfl⟩

theorem write_of_fault {r : Registry} {m : Memo} (reached : r.Leads r.start m)
    (fault : (r.transcript r.fallback.made v).toPayload = ⟨items, some e⟩) (out : Output) :
    ∃ s, r.write v ⟨out, m⟩ = .error e s ∧
      s.out.toList = out.toList ++ items.flatMap Item.encode := by
  rw [write_reached reached, Transcript.play_of_fault (congrArg Payload.fault? fault)]
  refine ⟨_, rfl, ?_⟩
  rw [Output.toList_foldl_put, congrArg Payload.items fault]

theorem constantAt_of_answer {r : Registry} {made : String → Option Format}
    (h : r.answer made (.byTag t) = .ok b) : r.constantAt? t = none := by
  apply constantAt_eq_none
  intro i place
  simp only [answer, target, place] at h
  cases h

end Registry

/-- How two sides correspond: what each tag that is looked up stands for, the addresses of the
objects that are made, and the values that come of all this. -/
structure Registry.Crossing (a b : Registry) (made made' : String → Option Format)
    (asked : Query → Prop) (addr : Nat → Nat → Prop) (value : Value → Value → Prop) : Prop where
  constant : ∀ {t v}, a.constantAt? t = some v → ∃ w, b.constantAt? t = some w ∧ value v w
  codec : ∀ {t f}, asked (.byTag t) → a.answer made (.byTag t) = .ok f →
    b.constantAt? t = none ∧ ∃ g, b.answer made' (.byTag t) = .ok g ∧ g.format = f.format
  next : ∀ {n k}, addr n k → addr (n + 1) (k + 1)
  null : value .null .null
  leaf : ∀ {n k} x, addr n k → value (.leaf n x) (.leaf k x)
  pair : ∀ {n k l l' r r'}, addr n k → value l l' → value r r' →
    value (.pair n l r) (.pair k l' r')

/-- The same is announced, up to constants. -/
inductive Announced.Alike (value : Value → Value → Prop) : Announced → Announced → Prop
  | value (same : value v w) : Alike value (.value v) (.value w)
  | payload (f : Format) : Alike value (.payload f) (.payload f)

namespace Reading

/-- Behind the lookups of the first state there are at most more. -/
def Later (p p' : Reader) : Prop := p.calls ⊆ p'.calls

theorem Later.refl (p : Reader) : Later p p := fun _ h => h

theorem Later.trans (p p' p'' : Reader) (h : Later p p') (g : Later p' p'') : Later p p'' :=
  fun _ hc => g (h hc)

/-- What succeeds for the first reader succeeds for the second in the same place, with corresponding
outcomes, if none but these lookups were made. -/
structure Carries (asked : Query → Prop) (addr : Nat → Nat → Prop) (outcome : α → β → Prop)
    (x : Reading α) (y : Reading β) : Prop where
  grows : Keeps Later x
  ok : ∀ {p q a p'}, x p = .ok a p' → (∀ c ∈ p'.calls, asked c) → q.input = p.input →
    addr p.fresh q.fresh →
    ∃ b q', y q = .ok b q' ∧ outcome a b ∧ q'.input = p'.input ∧ addr p'.fresh q'.fresh

theorem step_later (x : Decode α) : Keeps Later (step x) := by
  intro p
  unfold after step
  cases x ⟨p.input, 0, p.fresh, .empty⟩ <;> exact Later.refl p

theorem ask_later (r : Registry) (made : String → Option Format) (q : Query) :
    Keeps Later (ask r made q) := by
  intro p
  unfold after ask
  cases r.answer made q <;> exact fun _ hc => List.mem_append_left _ hc

theorem announce_later (r : Registry) (made : String → Option Format) (t : Tag) :
    Keeps Later (r.plainAnnounce made t) := by
  unfold Registry.plainAnnounce
  split
  · exact Later.refl
  · split
    · exact Later.refl
    · split
      · exact Later.refl
      · exact (ask_later r made _).bind Later.trans fun f => Later.refl

namespace Carries

variable {asked : Query → Prop} {addr : Nat → Nat → Prop}

theorem pure {outcome : α → β → Prop} (h : outcome a b) :
    Carries asked addr outcome (pure a) (pure b) where
  grows := Later.refl
  ok run _ place fresh := by
    cases run
    exact ⟨b, _, rfl, h, place, fresh⟩

theorem throw {outcome : α → β → Prop} (e : CodingError) (y : Reading β) :
    Carries asked addr outcome (throw e) y where
  grows := Later.refl
  ok run := nomatch run

theorem bind {first : α → β → Prop} {second : γ → δ → Prop} {x : Reading α} {y : Reading β}
    {f : α → Reading γ} {g : β → Reading δ} (hx : Carries asked addr first x y)
    (hf : ∀ {a b}, first a b → Carries asked addr second (f a) (g b))
    (grows : ∀ a, Keeps Later (f a)) :
    Carries asked addr second (x >>= f) (y >>= g) where
  grows := hx.grows.bind Later.trans grows
  ok run all place fresh := by
    obtain ⟨a, p, hx', hf'⟩ := bind_eq_ok.mp run
    have before : ∀ c ∈ p.calls, asked c := fun c hc => all c ((grows a).ok hf' hc)
    obtain ⟨b, q, hy, same, place, fresh⟩ := hx.ok hx' before place fresh
    obtain ⟨d, q', hg, outcome, place, fresh⟩ := (hf same).ok hf' all place fresh
    exact ⟨d, q', (bind_of_ok hy).trans hg, outcome, place, fresh⟩

theorem field (read : Read α) :
    Carries asked addr Eq (step (Decode.field read)) (step (Decode.field read)) where
  grows := step_later _
  ok {p q a p'} run _ place fresh := by
    unfold step Decode.field at run ⊢
    dsimp only at run ⊢
    rw [place]
    cases hr : read p.input <;> rw [hr] at run <;> cases run
    exact ⟨_, _, rfl, rfl, rfl, fresh⟩

theorem allocate (next : ∀ {n k}, addr n k → addr (n + 1) (k + 1)) :
    Carries asked addr addr (step Decode.allocate) (step Decode.allocate) where
  grows := step_later _
  ok run _ place fresh := by
    cases run
    exact ⟨_, _, rfl, fresh, place, next fresh⟩

end Carries

end Reading

namespace Registry.Crossing

variable {a b : Registry} {made made' : String → Option Format} {asked : Query → Prop}
  {addr : Nat → Nat → Prop} {value : Value → Value → Prop}

open Reading

theorem read_carries (h : a.Crossing b made made' asked addr value) {side side' : Reading Value}
    (sides : Carries asked addr value side side') (f : Format) :
    Carries asked addr value (f.plainRead side) (f.plainRead side') := by
  by_cases other : f = .pair
  · subst other
    have grows (l r : Value) : Keeps Later
        (step Decode.allocate >>= fun n => pure (Value.pair n l r)) :=
      (step_later _).bind Later.trans fun n => Later.refl
    refine sides.bind (fun {l l'} left => sides.bind (fun {r r'} right => ?_) (grows l)) fun l =>
      sides.grows.bind Later.trans (grows l)
    have placed : Carries asked addr addr (step Decode.allocate) (step Decode.allocate) :=
      .allocate h.next
    exact placed.bind (fun {n k} fresh => .pure (h.pair fresh left right)) fun n => Later.refl
  · have mine := (Format.read_alone other (return .null) side).2
    have theirs := (Format.read_alone other (return .null) side').2
    rw [mine, theirs]
    refine ⟨step_later _, fun {p q v p'} run _ place fresh => ?_⟩
    unfold step at run ⊢
    cases hr : f.read (return .null) ⟨p.input, 0, p.fresh, .empty⟩ <;> rw [hr] at run <;> cases run
    obtain ⟨x, _, rfl, next, elsewhere⟩ := f.read_makes other (return .null) _ _ _ hr
    have moved := elsewhere q.fresh
    rw [place]
    dsimp only at moved next ⊢
    rw [moved]
    exact ⟨_, _, rfl, h.leaf x fresh, rfl, next ▸ h.next fresh⟩

theorem announce_carries (h : a.Crossing b made made' asked addr value) (t : Tag) :
    Carries asked addr (Announced.Alike value) (a.plainAnnounce made t)
      (b.plainAnnounce made' t) := by
  unfold plainAnnounce
  split
  · exact .pure (.value h.null)
  · split
    · exact .throw _ _
    · cases constant : a.constantAt? t with
      | some v =>
        obtain ⟨w, found, same⟩ := h.constant constant
        rw [found]
        exact .pure (.value same)
      | none =>
        refine ⟨(ask_later a made _).bind Later.trans fun f => Later.refl, fun {p q x p'} run => ?_⟩
        obtain ⟨f, p'', answered, last⟩ := bind_eq_ok.mp run
        unfold Reading.ask at answered
        cases hf : a.answer made (.byTag t) <;> rw [hf] at answered <;> cases answered
        cases last
        intro all place fresh
        have here : asked (.byTag t) := all _ (List.mem_append_right _ List.mem_cons_self)
        obtain ⟨none, g, hg, same⟩ := h.codec here hf
        have answered : Reading.ask b made' (.byTag t) q =
            .ok g { q with calls := q.calls ++ [.byTag t] } := by
          unfold Reading.ask
          rw [hg]
          rfl
        rw [none]
        exact ⟨_, _, bind_of_ok answered, same ▸ .payload g.format, place, fresh⟩

theorem plainTag_carries (h : a.Crossing b made made' asked addr value) :
    Carries asked addr (Announced.Alike value) (a.plainTag made) (b.plainTag made') :=
  (Carries.field Cursor.tag).bind (fun same => same ▸ h.announce_carries _) fun t =>
    announce_later a made t

theorem plainRead_carries (h : a.Crossing b made made' asked addr value) (room : Nat) :
    Carries asked addr value (a.plainRead made room) (b.plainRead made' room) := by
  induction room with
  | zero =>
    refine h.plainTag_carries.bind (fun same => ?_) fun x => ?_
    · cases same with
      | value same => exact .pure same
      | payload f => exact .throw _ _
    · cases x <;> exact Later.refl
  | succ room ih =>
    refine h.plainTag_carries.bind (fun same => ?_) fun x => ?_
    · cases same with
      | value same => exact .pure same
      | payload f => exact h.read_carries ih f
    · cases x with
      | value v => exact Later.refl
      | payload f => exact (h.read_carries ih f).grows

theorem read {m n : Memo}
    (h : a.Crossing b (a.fallback.settled m) (b.fallback.settled n) asked addr value)
    (run : a.read ⟨input, depth, fresh, m⟩ = .ok v s)
    (all : ∀ c ∈ a.calls (a.fallback.settled m) (.read input depth fresh), asked c)
    (placed : addr fresh fresh') :
    ∃ w s', b.read ⟨input, depth, fresh', n⟩ = .ok w s' ∧ value v w ∧ s'.input = s.input ∧
      addr s.fresh s'.fresh := by
  have mine := a.read_plainly input depth fresh m
  have theirs := b.read_plainly input depth fresh' n
  rw [run] at mine
  cases plain : a.plainRead (a.fallback.settled m) (nestingLimit - depth) ⟨input, fresh, []⟩ with
  | error e p =>
    rw [plain] at mine
    cases mine
  | ok u p =>
    rw [plain] at mine
    cases mine
    simp only [calls, after_of_ok plain] at all
    have carries := h.plainRead_carries (nestingLimit - depth)
    obtain ⟨w, q, other, same, place, next⟩ :=
      carries.ok (q := ⟨input, fresh', []⟩) plain all rfl placed
    rw [other] at theirs
    exact ⟨w, _, theirs, same, place, next⟩

end Registry.Crossing

end TagCodec
