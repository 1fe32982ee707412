import TagCodec.Proofs.Payloads
import TagCodec.Proofs.Writing

namespace TagCodec

open Steps

/-- If no class name is claimed twice, it belongs to one codec. -/
theorem Codec.owner_unique {cs : List Codec} (distinct : (cs.flatMap Codec.claims).Nodup)
    (hc : c ∈ cs) (he : e ∈ cs) (mine : n ∈ c.claims) (theirs : n ∈ e.claims) : c = e := by
  have apart := (List.pairwise_flatMap.mp distinct).2
  have same : ∀ c ∈ cs, ∀ e ∈ cs, n ∈ c.claims → n ∈ e.claims → c = e := by
    refine List.Pairwise.forall_of_forall_of_flip (fun _ _ _ _ => rfl) ?_ ?_
    · exact apart.imp fun h mine theirs => absurd rfl (h n mine n theirs)
    · exact apart.imp fun h mine theirs => absurd rfl (h n theirs n mine)
  exact same c hc e he mine theirs

/-- Two drafts with the same formats, the same names and as many constants. Every format can
be read without the classes that only one side knows. -/
structure Draft.Peers (d e : Draft) : Prop where
  formats : ∀ f, f ∈ d.codecs.map Codec.format ↔ f ∈ e.codecs.map Codec.format
  known : ∀ f ∈ d.codecs.map Codec.format, f.isToken = false
  names : ∀ name, name ∈ d.names.toList ↔ name ∈ e.names.toList
  allowed : d.allowDefault = e.allowDefault
  fallback : d.fallback = e.fallback
  standard : d.fallback.factory = .standard
  constants : d.constants.length = e.constants.length

namespace Registry

/-- Registries that give the same formats and as many constants the same tags. -/
structure Peers (a b : Registry) : Prop where
  formats : a.codecs.map Codec.format = b.codecs.map Codec.format
  known : ∀ f ∈ a.codecs.map Codec.format, f.isToken = false
  names : a.names = b.names
  allowed : a.allowDefault = b.allowDefault
  fallback : a.fallback = b.fallback
  standard : a.fallback.factory = .standard
  constants : a.constants.length = b.constants.length

theorem names_distinct (r : Registry) :
    (r.codecs.map Codec.format).Pairwise fun f g => f.primary.name ≠ g.primary.name := by
  have claims := (List.pairwise_flatMap.mp r.claims_distinct).2
  refine List.pairwise_map.mpr (claims.imp fun h => ?_)
  exact h _ List.mem_cons_self _ List.mem_cons_self

theorem formats_nodup (r : Registry) : (r.codecs.map Codec.format).Nodup :=
  r.names_distinct.imp fun h same => h (congrArg (fun f : Format => f.primary.name) same)

theorem claimant_unique {r : Registry} (hc : c ∈ r.codecs) (he : e ∈ r.codecs)
    (mine : name ∈ c.claims) (theirs : name ∈ e.claims) : c = e :=
  Codec.owner_unique r.claims_distinct hc he mine theirs

theorem codec_unique {r : Registry} (hc : c ∈ r.codecs) (he : e ∈ r.codecs)
    (same : c.name = e.name) : c = e := by
  have mine : c.name ∈ c.claims := List.mem_cons_self
  have theirs : e.name ∈ e.claims := List.mem_cons_self
  exact claimant_unique hc he mine (same ▸ theirs)

theorem format_unique {r : Registry} {f g : Format} (hf : f ∈ r.codecs.map Codec.format)
    (hg : g ∈ r.codecs.map Codec.format) (same : f.primary.name = g.primary.name) : f = g := by
  obtain ⟨c, hc, rfl⟩ := List.mem_map.mp hf
  obtain ⟨e, he, rfl⟩ := List.mem_map.mp hg
  exact congrArg Codec.format (codec_unique hc he same)

theorem formats_sorted (r : Registry) :
    (r.codecs.map Codec.format).Pairwise fun f g => f.primary.name ≤ g.primary.name :=
  List.pairwise_map.mpr r.codecs_sorted

/-- Sorting by class name leaves no choice, since no two codecs are made for one class. -/
theorem formats_eq {a b : Registry}
    (same : ∀ f, f ∈ a.codecs.map Codec.format ↔ f ∈ b.codecs.map Codec.format) :
    a.codecs.map Codec.format = b.codecs.map Codec.format := by
  have perm := (List.perm_ext_iff_of_nodup a.formats_nodup b.formats_nodup).mpr same
  refine perm.eq_of_pairwise (fun f g hf hg le ge => ?_) a.formats_sorted b.formats_sorted
  exact format_unique hf ((same g).mpr hg) (String.le_antisymm le ge)

theorem mem_formats_build {d : Draft} {r : Registry} (built : d.build = .ok r) (f : Format) :
    f ∈ r.codecs.map Codec.format ↔ f ∈ d.codecs.map Codec.format := by
  rw [Draft.build_eq_ok built]
  exact ((Codec.sortByName_perm d.codecs).map Codec.format).mem_iff

/-- Registries built from such drafts differ only in instances and in the constants themselves. -/
theorem peers_of_build {d e : Draft} (same : d.Peers e) {a b : Registry}
    (ha : d.build = .ok a) (hb : e.build = .ok b) : a.Peers b := by
  have left := Draft.build_eq_ok ha
  have right := Draft.build_eq_ok hb
  constructor
  · exact formats_eq fun f => by
      rw [mem_formats_build ha, mem_formats_build hb]
      exact same.formats f
  · exact fun f hf => same.known f ((mem_formats_build ha f).mp hf)
  · rw [left, right]
    exact Names.ext same.names
  · rw [left, right]
    exact same.allowed
  · rw [left, right]
    exact same.fallback
  · rw [left]
    exact same.standard
  · rw [left, right]
    exact same.constants

theorem Peers.codecs {a b : Registry} (h : a.Peers b) : a.codecs.length = b.codecs.length := by
  have := congrArg List.length h.formats
  simpa using this

theorem Peers.constantTag {a b : Registry} (h : a.Peers b) (i : Nat) :
    a.constantTag i = b.constantTag i := by
  rw [Registry.constantTag, Registry.constantTag, h.codecs]

theorem Peers.offers {a b : Registry} (h : a.Peers b) (offers : a.Offers t f) : b.Offers t f := by
  cases offers with
  | @explicit i c codec =>
    have mine : (a.codecs.map Codec.format)[i]? = some c.format := by
      rw [List.getElem?_map, codec]
      rfl
    rw [h.formats, List.getElem?_map] at mine
    obtain ⟨c', codec', same⟩ := Option.map_eq_some_iff.mp mine
    exact same ▸ .explicit codec'
  | @fallback i name f allowed listed made =>
    have tag : a.fallbackTag i = b.fallbackTag i := by
      rw [Registry.fallbackTag, Registry.fallbackTag, h.codecs, h.constants]
    rw [tag]
    exact .fallback (h.allowed ▸ allowed) (h.names ▸ listed) (h.fallback ▸ made)

theorem isToken_of_make {c : Class} (h : Factory.standard.make c = .ok f) :
    f.isToken = false := by
  rw [Factory.make_eq] at h
  split at h
  · simp only [Factory.standard, Format.ordinalOf] at h
    split at h <;> cases h
    rfl
  · simp only [Factory.standard, Format.fieldsOf] at h
    split at h <;> cases h
    rfl

theorem Peers.noToken {a b : Registry} (h : a.Peers b) (offers : a.Offers t f) :
    f.isToken = false := by
  cases offers with
  | explicit codec => exact h.known _ (List.mem_map_of_mem (List.mem_of_getElem? codec))
  | @fallback i name f allowed listed made =>
    cases found : a.fallback.resolver.find name with
    | error e =>
      rw [Fallback.construct_of_missing found] at made
      cases made
    | ok c =>
      rw [Fallback.construct_of_found found, h.standard] at made
      exact isToken_of_make made

/-- A tag that is offered is looked up with success, in any memo that lookups lead to. -/
theorem resolveTag_of_offers {r : Registry} (offers : r.Offers t f) (sound : r.Sound m) :
    ∃ b n, r.resolveTag t m = .ok b n ∧ b.format = f ∧ r.Bound n b ∧ b.tag = t := by
  cases offers with
  | explicit codec =>
    have bound : r.Bound m ⟨explicitTag _, _, _⟩ := .explicit codec
    exact ⟨_, m, bound.resolveTag_eq, rfl, bound, rfl⟩
  | @fallback i name f allowed listed made =>
    have hi := (List.getElem?_eq_some_iff.mp listed).1
    have lookup := resolveTag_fallback (place_fallbackTag allowed hi) listed
    rcases r.fallbackAt_cases name i m with ⟨g, n, hg, built⟩ | ⟨n, hg, failed⟩
    · have after : r.Sound n := (r.kept_sound.fallbackAt name i).ok hg sound
      have same := after name _ built
      rw [made] at same
      cases same
      exact ⟨_, n, (congrFun lookup m).trans hg, rfl, .fallback allowed listed built, rfl⟩
    · -- a cell that holds a failure would not be sound, as an attempt succeeds
      have after : r.Sound n := (r.kept_sound.fallbackAt name i).error hg sound
      have same := after name _ failed
      rw [made] at same
      cases same

theorem readTag_of_offers {r : Registry} {s : Decoder} (offers : r.Offers t f)
    (sound : r.Sound s.memo) (faces : s.input = .facing pos ((Item.tag t).encode ++ rest)) :
    ∃ m, r.Sound m ∧ r.readTag s = .ok (.payload f)
      ⟨.facing (pos + (Item.tag t).encode.length) rest, s.depth, s.fresh, m⟩ := by
  obtain ⟨b, n, found, rfl, bound, rfl⟩ := resolveTag_of_offers offers sound
  have after : r.Sound n := (r.kept_sound.resolveTag b.tag).ok found sound
  refine ⟨n, after, ?_⟩
  rw [readTag_of_field (Decode.field_facing faces (Cursor.tag_encode b.tag pos rest))]
  exact announce_of_ok bound.positive bound.constantAt_eq_none found

end Registry

end TagCodec
