import TagCodec.Proofs.Fields
import TagCodec.Proofs.Reading

namespace TagCodec

open Steps

/-- How a state gets more input, how much it has altogether, and which errors say that it was not
enough, each with the place where the input ended. -/
structure Feed (ε σ : Type) where
  more : List UInt8 → σ → σ
  size : σ → Nat
  cut? : ε → Option Nat

namespace Feed

/-- More input changes nothing for the step unless it ran into the end, and where the input ends
is what it reports then. -/
structure Streams (F : Feed ε σ) (x : EStateM ε σ α) : Prop where
  size : Keeps (fun s t => F.size t = F.size s) x
  ok : ∀ {s a t} bs, x s = .ok a t → x (F.more bs s) = .ok a (F.more bs t)
  error : ∀ {s e t} bs, x s = .error e t → F.cut? e = none →
    x (F.more bs s) = .error e (F.more bs t)
  cut : ∀ {s e t n}, x s = .error e t → F.cut? e = some n → n = F.size s

namespace Streams

variable {F : Feed ε σ}

theorem pure (a : α) : F.Streams (pure a : EStateM ε σ α) where
  size _ := rfl
  ok bs h := by cases h; rfl
  error bs h := by cases h
  cut h := by cases h

theorem throw (uncut : F.cut? e = none) : F.Streams (throw e : EStateM ε σ α) where
  size _ := rfl
  ok bs h := by cases h
  error bs h := by cases h; exact fun _ => rfl
  cut h hc := by
    cases h
    rw [uncut] at hc
    cases hc

theorem bind {x : EStateM ε σ α} {f : α → EStateM ε σ β} (hx : F.Streams x)
    (hf : ∀ a, F.Streams (f a)) : F.Streams (x >>= f) where
  size := hx.size.bind (fun _ _ _ h g => g.trans h) fun a => (hf a).size
  ok bs h := by
    obtain ⟨a, t, ha, hb⟩ := bind_eq_ok.mp h
    rw [bind_of_ok (hx.ok bs ha)]
    exact (hf a).ok bs hb
  error bs h uncut := by
    rcases bind_eq_error.mp h with he | ⟨a, t, ha, he⟩
    · exact bind_of_error (hx.error bs he uncut)
    · rw [bind_of_ok (hx.ok bs ha)]
      exact (hf a).error bs he uncut
  cut h hc := by
    rcases bind_eq_error.mp h with he | ⟨a, t, ha, he⟩
    · exact hx.cut he hc
    · rw [(hf a).cut he hc]
      exact hx.size.ok ha

theorem of_ok_or_cut {x : EStateM ε σ α}
    (h : ∀ s, (∃ a t, x s = .ok a t ∧ F.size t = F.size s ∧
        ∀ bs, x (F.more bs s) = .ok a (F.more bs t)) ∨
      ∃ e, x s = .error e s ∧ F.cut? e = some (F.size s)) : F.Streams x where
  size s := by
    rcases h s with ⟨a, t, ha, size, _⟩ | ⟨e, he, _⟩
    · exact after_of_ok ha ▸ size
    · rw [after_of_error he]
  ok {s _ _} bs hx := by
    rcases h s with ⟨a, t, ha, _, more⟩ | ⟨e, he, _⟩
    · cases ha.symm.trans hx
      exact more bs
    · cases he.symm.trans hx
  error {s _ _} bs hx uncut := by
    rcases h s with ⟨a, t, ha, _⟩ | ⟨e, he, cut⟩
    · cases ha.symm.trans hx
    · cases he.symm.trans hx
      rw [uncut] at cut
      cases cut
  cut {s _ _ _} hx hc := by
    rcases h s with ⟨a, t, ha, _⟩ | ⟨e, he, cut⟩
    · cases ha.symm.trans hx
    · cases he.symm.trans hx
      exact Option.some.inj (hc.symm.trans cut)

/-- A step may depend on what more input leaves as it is. -/
theorem view (look : σ → α) (same : ∀ bs s, look (F.more bs s) = look s)
    {f : α → EStateM ε σ β} (hf : ∀ a, F.Streams (f a)) :
    F.Streams (fun s => f (look s) s) where
  size s := (hf (look s)).size s
  ok bs h := by
    rw [same]
    exact (hf _).ok bs h
  error bs h uncut := by
    rw [same]
    exact (hf _).error bs h uncut
  cut h hc := (hf _).cut h hc

end Streams

end Feed

namespace Cursor

/-- More bytes behind those that the cursor has in front of it. -/
def followedBy (bs : List UInt8) (c : Cursor) : Cursor where
  pos := c.pos
  rest := c.rest ++ bs
  size := c.size + bs.length
  size_eq := by
    rw [List.length_append, ← Nat.add_assoc, ← c.size_eq]

def feed : Feed FieldError Cursor where
  more := followedBy
  size := Cursor.size
  cut?
    | .truncated n => some n
    | _ => none

theorem followedBy_facing (bs : List UInt8) (pos : Nat) (xs : List UInt8) :
    followedBy bs (facing pos xs) = facing pos (xs ++ bs) := by
  simp only [followedBy, facing, List.length_append, Nat.add_assoc]

theorem pos_le_size (c : Cursor) : c.pos ≤ c.size := by
  have := c.size_eq
  omega

theorem byte_streams : feed.Streams byte := by
  apply Feed.Streams.of_ok_or_cut
  intro c
  rw [c.eq_facing]
  cases c.rest with
  | nil => exact .inr ⟨_, rfl, rfl⟩
  | cons b rest =>
    refine .inl ⟨b, _, byte_cons .., ?_, fun bs => ?_⟩
    · change c.pos + 1 + rest.length = c.pos + (rest.length + 1)
      omega
    · change byte (followedBy bs _) = .ok b (followedBy bs _)
      rw [followedBy_facing, followedBy_facing]
      exact byte_cons ..

theorem take_streams (n : Nat) : feed.Streams (take n) := by
  apply Feed.Streams.of_ok_or_cut
  intro c
  by_cases fits : c.pos + n ≤ c.size
  · refine .inl ⟨_, _, dif_pos fits, rfl, fun bs => ?_⟩
    have enough : n ≤ c.rest.length := by
      have := c.size_eq
      omega
    have more : (followedBy bs c).pos + n ≤ (followedBy bs c).size := Nat.le_add_right_of_le fits
    apply (dif_pos more).trans
    simp only [followedBy, advance, feed, List.take_append_of_le_length enough,
      List.drop_append_of_le_length enough]
  · exact .inr ⟨_, dif_neg fits, rfl⟩

theorem varintWithin_streams (more : Nat) : feed.Streams (varintWithin more) := by
  induction more with
  | zero =>
    apply byte_streams.bind
    intro b
    split
    · exact .pure _
    · exact .view Cursor.pos (fun _ _ => rfl) fun p => .throw rfl
  | succ more ih =>
    apply byte_streams.bind
    intro b
    split
    · exact .pure _
    · exact ih.bind fun high => .pure _

theorem sint32_streams : feed.Streams sint32 := by
  have body (start : Nat) : feed.Streams (varint >>= fun n =>
      if n < 0x100000000 then pure (Int32.ofInt (Varint.unzigzag n))
      else throw (.invalidVarint start)) := by
    apply (varintWithin_streams 9).bind
    intro n
    split
    · exact .pure _
    · exact .throw rfl
  exact .view Cursor.pos (fun _ _ => rfl) body

theorem tag_streams : feed.Streams tag := sint32_streams.bind fun _ => .pure _

theorem bytes_streams : feed.Streams bytes := (varintWithin_streams 9).bind take_streams

theorem text_streams : feed.Streams text := by
  apply bytes_streams.bind
  intro bs
  split
  · exact .pure _
  · exact .throw rfl

end Cursor

namespace Decode

def feed : Feed CodingError Decoder where
  more bs s := { s with input := s.input.followedBy bs }
  size s := s.input.size
  cut?
    | .field (.truncated n) => some n
    | _ => none

theorem eq_truncated (h : feed.cut? e = some n) : e = .field (.truncated n) := by
  simp only [feed] at h
  split at h <;> cases h
  rfl

theorem cut_eq_none (h : ∀ n, e ≠ .field (.truncated n)) : feed.cut? e = none := by
  cases hc : feed.cut? e with
  | none => rfl
  | some n => exact absurd (eq_truncated hc) (h n)

theorem field_streams {read : Read α} (h : Cursor.feed.Streams read) :
    feed.Streams (field read) where
  size := keeps_field fun s => h.size s.input
  ok bs hx := by
    obtain ⟨c, hr, rfl⟩ := field_eq_ok.mp hx
    exact field_eq_ok.mpr ⟨_, h.ok bs hr, rfl⟩
  error bs hx uncut := by
    obtain ⟨f, c, hr, rfl, rfl⟩ := field_eq_error.mp hx
    have inner : Cursor.feed.cut? f = none := by
      cases f with
      | truncated n => cases uncut
      | _ => rfl
    exact field_eq_error.mpr ⟨f, _, h.error bs hr inner, rfl, rfl⟩
  cut hx hc := by
    obtain ⟨f, c, hr, rfl, rfl⟩ := field_eq_error.mp hx
    cases f with
    | truncated n => exact h.cut hr hc
    | _ => cases hc

theorem lookup_streams (l : Lookup α) : feed.Streams (lookup l) where
  size := keeps_lookup fun _ => rfl
  ok bs hx := by
    obtain ⟨m, hl, rfl⟩ := lookup_eq_ok.mp hx
    exact lookup_eq_ok.mpr ⟨m, hl, rfl⟩
  error bs hx _ := by
    obtain ⟨f, m, hl, rfl, rfl⟩ := lookup_eq_error.mp hx
    exact lookup_eq_error.mpr ⟨f, m, hl, rfl, rfl⟩
  cut hx hc := by
    obtain ⟨f, m, hl, rfl, rfl⟩ := lookup_eq_error.mp hx
    cases hc

theorem allocate_streams : feed.Streams allocate where
  size _ := rfl
  ok bs hx := by cases hx; rfl
  error bs hx := by cases hx
  cut hx := by cases hx

theorem deeper_streams {x : Decode α} (h : feed.Streams x) : feed.Streams (deeper x) where
  size := keeps_deeper h.size fun _ _ same => same
  ok bs hx := by
    obtain ⟨u, hu, rfl⟩ := deeper_eq_ok.mp hx
    exact deeper_eq_ok.mpr ⟨_, h.ok bs hu, rfl⟩
  error bs hx uncut := by
    obtain ⟨u, hu, rfl⟩ := deeper_eq_error.mp hx
    exact deeper_eq_error.mpr ⟨_, h.error bs hu uncut, rfl⟩
  cut hx hc := by
    obtain ⟨u, hu, rfl⟩ := deeper_eq_error.mp hx
    exact (h.cut hu hc :)

theorem closed_streams : Closed feed.Streams where
  pure := .pure
  throw e other _ := .throw (by
    cases e with
    | field f => exact absurd rfl (other f)
    | _ => rfl)
  bind hx hf := .bind hx hf
  varint := field_streams (Cursor.varintWithin_streams 9)
  sint32 := field_streams Cursor.sint32_streams
  bytes := field_streams Cursor.bytes_streams
  text := field_streams Cursor.text_streams
  allocate := allocate_streams

end Decode

namespace Registry

theorem read_streams (r : Registry) : Decode.feed.Streams r.read := by
  have within (room : Nat) : Decode.feed.Streams (r.readWithin room) :=
    readWithin_closed Decode.closed_streams (Decode.field_streams Cursor.tag_streams)
      (fun t => Decode.lookup_streams _) (.throw rfl) Decode.deeper_streams room
  exact .view Decoder.depth (fun _ _ => rfl) fun depth => within (nestingLimit - depth)

/-- What was read from an input is read from every longer one that begins with it, the place
where the reading ended included, and so is every failure but to find the end of the input,
which is always reported as it is. An input that was cut before that place fails in this way. -/
theorem reading_streams (r : Registry) (bs more : List UInt8) (depth fresh : Nat) (m : Memo) :
    (∀ v t, r.read ⟨.ofList bs, depth, fresh, m⟩ = .ok v t →
      r.read ⟨.ofList (bs ++ more), depth, fresh, m⟩ =
        .ok v { t with input := t.input.followedBy more }) ∧
    (∀ e t, r.read ⟨.ofList bs, depth, fresh, m⟩ = .error e t →
      (∀ n, e ≠ .field (.truncated n)) →
      r.read ⟨.ofList (bs ++ more), depth, fresh, m⟩ =
        .error e { t with input := t.input.followedBy more }) ∧
    (∀ n t, r.read ⟨.ofList bs, depth, fresh, m⟩ = .error (.field (.truncated n)) t →
      n = bs.length) ∧
    (∀ v t k, r.read ⟨.ofList bs, depth, fresh, m⟩ = .ok v t → k < t.input.pos →
      ∃ u, r.read ⟨.ofList (bs.take k), depth, fresh, m⟩ = .error (.field (.truncated k)) u) := by
  have start (xs ys : List UInt8) : Decode.feed.more ys ⟨.ofList xs, depth, fresh, m⟩ =
      ⟨.ofList (xs ++ ys), depth, fresh, m⟩ := by
    simp only [Decode.feed, Cursor.ofList_eq_facing, Cursor.followedBy_facing]
  have streams := r.read_streams
  refine ⟨fun v t h => ?_, fun e t h other => ?_, fun n t h => streams.cut h rfl, ?_⟩
  · rw [← start]
    exact streams.ok more h
  · rw [← start]
    exact streams.error more h (Decode.cut_eq_none other)
  · intro v t k h before
    have size : t.input.size = bs.length := streams.size.ok h
    have within : t.input.pos ≤ t.input.size := t.input.pos_le_size
    have whole : bs.take k ++ bs.drop k = bs := List.take_append_drop k bs
    cases cut : r.read ⟨.ofList (bs.take k), depth, fresh, m⟩ with
    | ok w u =>
      -- the longer input would have been read no further than this one
      have longer := streams.ok (bs.drop k) cut
      rw [start, whole, h] at longer
      have short : u.input.size = (bs.take k).length := streams.size.ok cut
      have bound : u.input.pos ≤ u.input.size := u.input.pos_le_size
      have same : t.input.pos = u.input.pos := by
        cases longer
        rfl
      rw [short, List.length_take] at bound
      omega
    | error e u =>
      cases hc : Decode.feed.cut? e with
      | none =>
        have longer := streams.error (bs.drop k) cut hc
        rw [start, whole, h] at longer
        cases longer
      | some n =>
        have length : n = (bs.take k).length := streams.cut cut hc
        rw [List.length_take, Nat.min_eq_left (by omega)] at length
        rw [Decode.eq_truncated hc, length]
        exact ⟨u, rfl⟩

/-- A pair of a point and null in five bytes, with two more behind it and cut after three. -/
theorem stream_of_pair :
    ∃ d r t u, d = (Draft.empty.addCodec ⟨7, .pair⟩).addCodec ⟨8, .point⟩ ∧ d.build = .ok r ∧
      t = ⟨.facing 5 [], 0, 2, r.start⟩ ∧
      r.read ⟨.ofList [2, 4, 6, 7, 0], 0, 0, r.start⟩ =
        .ok (.pair 1 (.leaf 0 (.point ⟨3, -4⟩)) .null) t ∧
      r.read ⟨.ofList ([2, 4, 6, 7, 0] ++ [9, 9]), 0, 0, r.start⟩ =
        .ok (.pair 1 (.leaf 0 (.point ⟨3, -4⟩)) .null)
          { t with input := t.input.followedBy [9, 9] } ∧
      r.read ⟨.ofList [2, 4, 6], 0, 0, r.start⟩ = .error (.field (.truncated 3)) u := by
  obtain ⟨r, built⟩ :
      ∃ r, ((Draft.empty.addCodec ⟨7, .pair⟩).addCodec ⟨8, .point⟩).build = .ok r := ⟨_, rfl⟩
  have read : r.read ⟨.ofList [2, 4, 6, 7, 0], 0, 0, r.start⟩ =
      .ok (.pair 1 (.leaf 0 (.point ⟨3, -4⟩)) .null) ⟨.facing 5 [], 0, 2, r.start⟩ := by
    cases built
    decide +kernel
  obtain ⟨longer, _, _, shorter⟩ := reading_streams r [2, 4, 6, 7, 0] [9, 9] 0 0 r.start
  obtain ⟨u, cut⟩ := shorter _ _ 3 read (by simp [Cursor.facing])
  exact ⟨_, r, _, u, rfl, built, rfl, read, longer _ _ read, cut⟩

end Registry

end TagCodec
