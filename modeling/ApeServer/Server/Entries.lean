import ApeServer.Json.Blind
import ApeServer.Server.Frames

/-!
# Two ways into the parser

`init_json_parser` and `ape_server_on_ws_frame` make a parser alike and feed it a text byte by byte.
One hands over a `char`, which is negative from `0x80` on and then refused; the other an `unsigned
char`.

* `EntriesAgree` — both take a text, or neither does, and they make the same tree of it;
* `initJsonParser_high` — a byte from `0x80` on makes `init_json_parser` refuse a text;
* `entriesAgree_iff` — **they agree exactly on the texts of ASCII that are not blank, and on those that
  are no document with `#` for the other bytes either**.
-/

namespace Ape.Server

open Json (Blank Context Item Libc build chars codes initJsonParser jsonParserDone plain)

/-! ## What is compared -/

/-- The tree that a context is left with: the items and the first of them. -/
def treeOf (s : Option Context) : Option (List Item × Nat) :=
  s.bind fun s => s.head.map fun head => (s.items, head)

/-- `init_json_parser` returns a tree if and only if a parser that is fed with the bytes of a frame
takes the text, and then both have the same tree. -/
def EntriesAgree (libc : Libc) (text : List UInt8) : Prop :=
  ((treeOf (initJsonParser libc text)).isSome = true ↔ Valid libc text) ∧
    (Valid libc text → treeOf (initJsonParser libc text) =
      treeOf (build (readFrame libc text frameParser).events))

/-- A byte, with `#` for one from `0x80` on. -/
def marked (b : UInt8) : UInt8 := if b < 128 then b else 35

/-! ## Bytes from `0x80` on -/

theorem codes_marked (text : List UInt8) : codes (text.map marked) = (codes text).map plain := by
  have hbyte : ∀ b : UInt8, ((marked b).toNat : Int) = plain b.toNat :=
    CString.forall_byte (by decide) (by decide)
  simp only [codes, List.map_map]
  exact List.map_congr_left fun b _ => hbyte b

/-- Whether a frame is taken does not depend on which bytes from `0x80` on are in it. -/
theorem valid_marked (libc : Libc) (text : List UInt8) :
    Valid libc (text.map marked) ↔ Valid libc text := by
  have hplain := Json.feed_plain libc true 15 (codes text)
  rw [← codes_marked] at hplain
  unfold Valid readFrame
  exact (congrArg (· = true) hplain).to_iff

/-- A negative character is refused, wherever it is. -/
theorem feed_negative (libc : Libc) {cs : List Int} (h : ∃ c ∈ cs, c < 0) (jc : Json.Parser) :
    (Json.feed libc cs jc).ok = false := by
  induction cs generalizing jc with
  | nil =>
    obtain ⟨c, hc, -⟩ := h
    exact absurd hc List.not_mem_nil
  | cons c cs ih =>
    rw [Json.feed]
    by_cases hc : c < 0
    · rw [Json.jsonParserChar, if_pos hc]
      rfl
    · have hrest : ∃ c ∈ cs, c < 0 := by
        obtain ⟨d, hd, hneg⟩ := h
        rcases List.mem_cons.1 hd with rfl | hd
        · exact absurd hneg hc
        · exact ⟨d, hd, hneg⟩
      unfold Json.Outcome.andThen
      split
      case isTrue => exact ih hrest _
      case isFalse hno => simpa using hno

/-- **A byte from `0x80` on makes `init_json_parser` refuse a text.** -/
theorem initJsonParser_high (libc : Libc) {text : List UInt8} (htext : 0 ∉ text)
    (hhigh : ¬ ∀ b ∈ text, b < 128) : initJsonParser libc text = none := by
  have hwhole : text.takeWhile (· ≠ 0) = text := by
    rw [List.takeWhile_eq_self_iff]
    intro c hc
    simp only [decide_eq_true_eq]
    rintro rfl
    exact htext hc
  have hsigned : ∀ b : UInt8, b < 128 ∨ b.toInt8.toInt < 0 :=
    CString.forall_byte (by decide) (by decide)
  have hnegative : ∃ c ∈ chars text, c < 0 := by
    obtain ⟨b, hb, hlarge⟩ : ∃ b ∈ text, ¬ b < 128 := by
      by_contra hnone
      exact hhigh fun b hb => by_contra fun hlarge => hnone ⟨b, hb, hlarge⟩
    refine ⟨b.toInt8.toInt, ?_, (hsigned b).resolve_left hlarge⟩
    rw [chars, hwhole]
    exact List.mem_map_of_mem hb
  have hrefused := feed_negative libc hnegative (Json.newParser true 15 false)
  unfold initJsonParser Json.Outcome.andThen
  simp [hrefused]

/-- A text of ASCII is fed alike in both places. -/
theorem initJsonParser_ascii (libc : Libc) {text : List UInt8} (htext : 0 ∉ text)
    (hascii : ∀ b ∈ text, b < 128) :
    initJsonParser libc text = if (readFrame libc text frameParser).ok then
      build (readFrame libc text frameParser).events else none := by
  have hchars : chars text = codes text := by
    apply Json.chars_of_ascii
    intro b hb
    refine ⟨?_, hascii b hb⟩
    rintro rfl
    exact htext hb
  unfold initJsonParser
  rw [hchars]
  rfl

/-! ## Agreement -/

/-- White space has no byte from `0x80` on. -/
theorem blank_marked {text : List UInt8} : Blank (text.map marked) ↔ Blank text := by
  have hbyte : ∀ b : UInt8, (marked b = 32 ∨ marked b = 9 ∨ marked b = 10 ∨ marked b = 13) ↔
      (b = 32 ∨ b = 9 ∨ b = 10 ∨ b = 13) :=
    CString.forall_byte (by decide) (by decide)
  unfold Json.Blank
  rw [List.forall_mem_map]
  exact forall₂_congr fun b _ => hbyte b

/-- **Both ways agree** exactly on a text that is not blank, and that has no byte from `0x80` on or
is no document with `#` for these bytes. -/
theorem entriesAgree_iff (libc : Libc) {text : List UInt8} (htext : 0 ∉ text) :
    EntriesAgree libc text ↔
      ¬ Blank text ∧ ((∀ b ∈ text, b < 128) ∨ ¬ IsDocument libc (text.map marked)) := by
  have hmarked : ¬ Blank text → (IsDocument libc (text.map marked) ↔ Valid libc text) := by
    intro hblank
    rw [← valid_marked, valid_iff_document, or_iff_right (mt blank_marked.1 hblank)]
  suffices h : EntriesAgree libc text ↔
      ¬ Blank text ∧ ((∀ b ∈ text, b < 128) ∨ ¬ Valid libc text) by
    rw [h]
    exact and_congr_right fun hblank => by rw [hmarked hblank]
  unfold EntriesAgree
  by_cases hascii : ∀ b ∈ text, b < 128
  · rw [initJsonParser_ascii libc htext hascii]
    by_cases hvalid : Valid libc text
    · have hok : (readFrame libc text frameParser).ok = true := hvalid
      rw [if_pos hok]
      by_cases hblank : Blank text
      · have hnone : treeOf (build (readFrame libc text frameParser).events) = none := by
          rw [(readFrame_blank libc hblank).2]
          rfl
        rw [hnone]
        simp [hvalid, hblank]
      · obtain ⟨kind, es, hevents⟩ := valid_first libc hvalid hblank
        obtain ⟨s, hs, hhead⟩ := Json.build_begin kind es
        have hsome : treeOf (build (readFrame libc text frameParser).events) = some (s.items, 0) := by
          rw [hevents, hs]
          simp [treeOf, hhead]
        rw [hsome]
        exact iff_of_true ⟨iff_of_true rfl hvalid, fun _ => rfl⟩ ⟨hblank, .inl hascii⟩
    · have hno : ¬ (readFrame libc text frameParser).ok = true := hvalid
      have hblank : ¬ Blank text := fun hblank => hvalid (readFrame_blank libc hblank).1
      rw [if_neg hno]
      simp [treeOf, hvalid, hblank]
  · have hblank : ¬ Blank text := by
      intro hblank
      apply hascii
      intro b hb
      rcases hblank b hb with rfl | rfl | rfl | rfl <;> decide
    rw [initJsonParser_high libc htext hascii]
    by_cases hvalid : Valid libc text
    · refine iff_of_false ?_ ?_
      · rintro ⟨hagree, -⟩
        exact Bool.false_ne_true (hagree.2 hvalid)
      · rintro ⟨-, hall | hno⟩
        · exact hascii hall
        · exact hno hvalid
    · simp [treeOf, hvalid, hblank]

/-- The two entry points agree on `[1]`. -/
theorem entriesAgree_one : EntriesAgree ⟨fun _ => 0, 46⟩ [91, 49, 93] :=
  (entriesAgree_iff _ (by decide)).2 ⟨by decide, .inl (by decide +kernel)⟩

/-- On `["é"]` in UTF-8 they do not: the frame is taken, the text is refused. -/
theorem entries_disagree : ¬ ∀ libc text, 0 ∉ text → EntriesAgree libc text := by
  intro h
  have hagree := h ⟨fun _ => 0, 46⟩ [91, 34, 195, 169, 34, 93] (by decide)
  exact absurd (hagree.1.2 (by decide)) (by decide)

end Ape.Server
