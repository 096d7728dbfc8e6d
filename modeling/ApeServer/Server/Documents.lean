import ApeServer.Server.Entries

/-!
# What the two entry points take

The first frame of a client that has no parser, and a text for `init_json_parser`, are compared with
the language of documents.

* `onWsFrame_first` — **a frame that finds no parser** is answered by its tree, or refused as no
  document;
* `initJsonParser_iff` — **`init_json_parser`** makes the tree of a document of ASCII, and no other.
-/

namespace Ape.Server

open Json (Blank Context DocumentText Libc Members build documentItems initJsonParser)

section Functions

variable (libc : Libc)

/-- The tree of a document, as the callback leaves it. -/
def treeFor {kind : Json.Kind} (m : Members kind) : Context :=
  ⟨documentItems m, false, false, some 0, some 0⟩

/-- **A frame that finds no parser** is processed with the tree of the document that it is, without one
if it is blank, and is answered as bad JSON if it is neither; the process goes on. -/
theorem onWsFrame_first (s : Session) (hrunning : s.lost = false) (h : s.json = none)
    {payload : List UInt8} (hshort : payload.length < 2 ^ 31) :
    (onWsFrame libc s payload).lost = false ∧
    (∀ (kind : Json.Kind) (m : Members kind), DocumentText libc m payload →
      (onWsFrame libc s payload).log = s.log ++ [.process (some (treeFor m))]) ∧
    (Blank payload → (onWsFrame libc s payload).log = s.log ++ [.process (some {})]) ∧
    (¬ Blank payload → (∀ (kind : Json.Kind) (m : Members kind), ¬ DocumentText libc m payload) →
      (onWsFrame libc s payload).log = s.log ++ [.badJson]) := by
  have hvalid : ∀ es, Valid libc payload ∧ (readFrame libc payload frameParser).events = es →
      answer libc payload = .process (build es) := by
    rintro es ⟨hok, rfl⟩
    exact if_pos hok
  rw [onWsFrame_none libc hrunning h hshort]
  refine ⟨rfl, fun kind m htext => ?_, fun hblank => ?_, fun hblank hnone => ?_⟩
  · rw [hvalid _ ((valid_iff libc payload _).2 (.inr ⟨kind, m, htext, rfl⟩)),
      Json.build_documentEvents]
    rfl
  · rw [hvalid [] (readFrame_blank libc hblank)]
    rfl
  · have hno : ¬ Valid libc payload := by
      rw [valid_iff_document]
      rintro (hyes | ⟨kind, m, htext⟩)
      · exact hblank hyes
      · exact hnone kind m htext
    rw [answer, if_neg hno]

end Functions

/-- The frame `[1.]`, which finds no parser, is answered as its text is read. -/
theorem onWsFrame_first_one : (onWsFrame ⟨fun _ => 7, 46⟩ (.of .new) [91, 49, 46, 93]).lost = false ∧
    (∀ (kind : Json.Kind) (m : Members kind), DocumentText ⟨fun _ => 7, 46⟩ m [91, 49, 46, 93] →
      (onWsFrame ⟨fun _ => 7, 46⟩ (.of .new) [91, 49, 46, 93]).log =
        (Session.of .new).log ++ [.process (some (treeFor m))]) ∧
    (Blank [91, 49, 46, 93] → (onWsFrame ⟨fun _ => 7, 46⟩ (.of .new) [91, 49, 46, 93]).log =
      (Session.of .new).log ++ [.process (some {})]) ∧
    (¬ Blank [91, 49, 46, 93] → (∀ (kind : Json.Kind) (m : Members kind),
        ¬ DocumentText ⟨fun _ => 7, 46⟩ m [91, 49, 46, 93]) →
      (onWsFrame ⟨fun _ => 7, 46⟩ (.of .new) [91, 49, 46, 93]).log =
        (Session.of .new).log ++ [.badJson]) :=
  onWsFrame_first ⟨fun _ => 7, 46⟩ (.of .new) rfl rfl (by decide)

/-- **`init_json_parser`** takes the C strings of ASCII that are blank or documents, and makes just the
trees of these documents. -/
theorem initJsonParser_iff (libc : Libc) (text : List UInt8) (s : Context) :
    initJsonParser libc text = some s ↔ (∀ b ∈ text.takeWhile (· ≠ 0), b < 128) ∧
      (Blank (text.takeWhile (· ≠ 0)) ∧ s = {} ∨ ∃ (kind : Json.Kind) (m : Members kind),
        DocumentText libc m (text.takeWhile (· ≠ 0)) ∧ s = treeFor m) := by
  have hzero : 0 ∉ text.takeWhile (· ≠ 0) := by
    intro hmem
    simpa using List.mem_takeWhile_imp hmem
  have hcut : initJsonParser libc text = initJsonParser libc (text.takeWhile (· ≠ 0)) := by
    have hchars : Json.chars text = Json.chars (text.takeWhile (· ≠ 0)) := by
      rw [Json.chars, Json.chars, List.takeWhile_idem]
    unfold initJsonParser
    rw [hchars]
  rw [hcut]
  generalize text.takeWhile (· ≠ 0) = t at hzero
  by_cases hascii : ∀ b ∈ t, b < 128
  · rw [initJsonParser_ascii libc hzero hascii]
    constructor
    · intro h
      split_ifs at h with hok
      refine ⟨hascii, ?_⟩
      rcases (valid_iff libc t _).1 ⟨hok, rfl⟩ with ⟨hblank, hes⟩ | ⟨kind, m, htext, hes⟩
      · rw [hes] at h
        exact .inl ⟨hblank, (Option.some.inj h).symm⟩
      · rw [hes, Json.build_documentEvents] at h
        exact .inr ⟨kind, m, htext, (Option.some.inj h).symm⟩
    · rintro ⟨-, ⟨hblank, rfl⟩ | ⟨kind, m, htext, rfl⟩⟩
      · obtain ⟨hok, hes⟩ := (valid_iff libc t []).2 (.inl ⟨hblank, rfl⟩)
        have hread : (readFrame libc t frameParser).ok = true := hok
        rw [if_pos hread, hes]
        rfl
      · obtain ⟨hok, hes⟩ := (valid_iff libc t _).2 (.inr ⟨kind, m, htext, rfl⟩)
        have hread : (readFrame libc t frameParser).ok = true := hok
        rw [if_pos hread, hes, Json.build_documentEvents]
        rfl
  · rw [initJsonParser_high libc hzero hascii]
    exact iff_of_false (by simp) fun h => hascii h.1

/-- `[1.]` is a document: a point needs no digit behind it. -/
example : DocumentText ⟨fun _ => 7, 46⟩ (.scalar () (.float 7) .nil : Members .array)
    [91, 49, 46, 93] := by
  have hnil : Json.Blank [] := fun _ h => absurd h List.not_mem_nil
  have hone : Json.Whole [49] := .inr ⟨49, [], rfl, by decide, by decide, fun _ h => absurd h List.not_mem_nil⟩
  have hnumber : Json.NumberText ⟨fun _ => 7, 46⟩ [49, 46] [] (.float 7) :=
    @Json.NumberText.fraction ⟨fun _ => 7, 46⟩ [] [49] [] [] [] (.inl rfl) hone
      (fun _ h => absurd h List.not_mem_nil) (.inl rfl)
  exact ⟨[], [49, 46], [], rfl, hnil,
    .inr ⟨[], [49, 46], [], rfl, hnil, .number hnumber hnil, .inl ⟨rfl, rfl⟩⟩, hnil⟩

end Ape.Server
