import TagCodec.Registry.Lookup
import TagCodec.Proofs.Fields
import TagCodec.Proofs.WrittenRecords

namespace TagCodec

open Json.Reader

theorem Config.takes (c : Config) : Takes reader c.toJson c := by
  have names : Takes (list string) (.array (c.fallbackClasses.map .string)) c.fallbackClasses :=
    list_takes fun name _ => string_takes name
  refine record_takes (s := ⟨some c.allowDefault, some c.fallbackClasses⟩) ?_ rfl
  refine .cons rfl rfl (slot_takes (bool_takes c.allowDefault)) ?_
  refine .cons rfl rfl (slot_takes names) ?_
  exact .nil

theorem Config.ofText_text (c : Config) (style : Json.Style) :
    ofText (style.text c.toJson) = .ok c := by
  rw [ofText, run_text c.takes]

theorem Config.ofFile_text (c : Config) (style : Json.Style) (path : String) :
    ofFile path (.ok (style.text c.toJson).toUTF8.data.toList) = .ok c := by
  simp only [ofFile, Cursor.fromUTF8_bytes, c.ofText_text]

theorem Tag.takes (t : Tag) : Takes reader (.ofTag t.toInt) t := by
  intro style bound gap rest blank within stop
  have taken := int32_takes t.val style bound gap rest blank within stop
  simp only [reader, toInt, taken, bind, Except.bind, pure, Except.pure]

theorem Tag.ofText_text (t : Tag) (style : Json.Style) :
    ofText (style.text (.ofTag t.toInt)) = .ok t :=
  run_text t.takes style

theorem Entry.takes (e : Entry) : Takes reader e.toJson e := by
  refine record_takes (s := ⟨some e.tag, some e.name⟩) ?_ rfl
  refine .cons rfl rfl (slot_takes e.tag.takes) ?_
  refine .cons rfl rfl (slot_takes (string_takes e.name)) ?_
  exact .nil

theorem Layout.takes (l : Layout) : Takes reader l.toJson l := by
  have entries (es : List Entry) : Takes readEntries (.array (es.map Entry.toJson)) es :=
    list_takes fun e _ => e.takes
  refine record_takes
    (s := ⟨some l.allowDefault, some l.explicit, some l.constants, some l.fallback⟩) ?_ rfl
  refine .cons rfl rfl (slot_takes (bool_takes l.allowDefault)) ?_
  refine .cons rfl rfl (slot_takes (entries l.explicit)) ?_
  refine .cons rfl rfl (slot_takes (entries l.constants)) ?_
  refine .cons rfl rfl (slot_takes (entries l.fallback)) ?_
  exact .nil

theorem Layout.ofText_text (l : Layout) (style : Json.Style) :
    ofText (style.text l.toJson) = .ok l :=
  run_text l.takes style

theorem Layout.text_inj {l m : Layout} {style : Json.Style} :
    style.text l.toJson = style.text m.toJson ↔ l = m := by
  constructor
  · intro same
    have read := l.ofText_text style
    rw [same, m.ofText_text] at read
    exact (Except.ok.inj read).symm
  · rintro rfl
    rfl

/-- Whatever the strings and the numbers in them are, what is written for a configuration, a tag or
a layout is read back as just that, on one line or over many, and a configuration also from a file.
So a registry that is set up by a text has the layout that it would have without it, and layouts
can be compared by their texts. -/
theorem texts_lossless (style : Json.Style) :
    (∀ c : Config, Config.ofText (style.text c.toJson) = .ok c ∧
      (∀ path, Config.ofFile path (.ok (style.text c.toJson).toUTF8.data.toList) = .ok c) ∧
      ∀ d : Draft, ∃ reread, Config.ofText (style.text c.toJson) = .ok reread ∧
        (d.withConfig reread).build.map Registry.layout =
          (d.withConfig c).build.map Registry.layout) ∧
    (∀ t : Tag, Tag.ofText (style.text (.ofTag t.toInt)) = .ok t) ∧
    (∀ l : Layout, Layout.ofText (style.text l.toJson) = .ok l) ∧
    ∀ r s : Registry, r.layout = s.layout ↔
      style.text r.layout.toJson = style.text s.layout.toJson := by
  refine ⟨fun c => ⟨c.ofText_text style, c.ofFile_text style, fun d => ?_⟩,
    fun t => t.ofText_text style, fun l => l.ofText_text style, fun r s => ?_⟩
  · exact ⟨c, c.ofText_text style, rfl⟩
  · exact Layout.text_inj.symm

example : Json.Style.plain.text (Config.toJson ⟨false, ["\"é\n\x01"]⟩) =
    "\x7b\"allow_default_codec\":false,\"fallback_classes\":[\"\\\"é\\n\\u0001\"]\x7d" := by
  decide +kernel

end TagCodec
