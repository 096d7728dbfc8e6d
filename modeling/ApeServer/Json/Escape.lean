import ApeServer.Json.RoundTrip

/-!
# Escapes

`escape_json_string` escapes eight characters; of these the parser has no escape for the apostrophe.
Other control characters are printed as they are, and refused.

* `Escapable` — the bytes that are read as they were;
* `reads_escaped`, `rejects_escaped` — **the inside of a value** that survives, and of another.
-/

namespace Ape.Json

/-- A byte of a value that is read as it was. -/
def Escapable (c : UInt8) : Prop := c ≠ 39 ∧ (32 ≤ c.toNat ∨ c ∈ [8, 9, 10, 12, 13])

instance (c : UInt8) : Decidable (Escapable c) := inferInstanceAs (Decidable (_ ∧ _))

section Values

variable {libc : Libc} {stack : List Modes}

/-- The two characters of an escape. -/
theorem reads_escape {x c : UInt8} {k : Classes} (hx : x ≠ 0 ∧ x.toNat < 128) (hu : x.toNat ≠ 117)
    (hescape : unescape x.toNat = some c) (hk : classOf x.toNat = some k)
    (ht : stateTransitionTable .es k = .goto .st) (buffer : List UInt8) :
    Reads libc (reading .st .string stack buffer) [92, x]
      (reading .st .string stack (buffer ++ [c])) [] := by
  have hbackslash : Reads libc (reading .st .string stack buffer) [92]
      { reading .es .string stack (buffer ++ [92]) with escaped := true } [] :=
    char_act (by decide) rfl (.inl (by simp)) rfl rfl
  refine hbackslash.append (b := [x]) (.char hx ?_)
  have hpop : { reading .es .string stack (buffer ++ [92]) with escaped := false }.bufferPop =
      reading .es .string stack buffer := bufferPop_reading 92
  have hadd : addChar x.toNat k { reading .es .string stack (buffer ++ [92]) with escaped := true } =
      ⟨true, reading .es .string stack (buffer ++ [c]), [], false⟩ := by
    unfold addChar addEscapedChar
    rw [if_pos rfl, if_neg (by exact_mod_cast hu), hescape]
    simp only [hpop]
    rfl
  have hstate : (reading .es .string stack (buffer ++ [c])).state = .es := rfl
  unfold jsonParserChar
  rw [if_neg (by omega), hk]
  simp only [hadd, Outcome.andThen_mk, hstate, ht]
  rfl

theorem escapeJsonString_cons (c : UInt8) (s : List UInt8) :
    escapeJsonString (c :: s) = escapeJsonString [c] ++ escapeJsonString s :=
  escapeJsonString_append [c] s

/-- A byte that survives is read back from what is printed for it. -/
theorem reads_escapable {c : UInt8} (hc : c.toNat < 128) (h : Escapable c) (buffer : List UInt8) :
    Reads libc (reading .st .string stack buffer) (escapeJsonString [c])
      (reading .st .string stack (buffer ++ [c])) [] := by
  by_cases hplain : PlainByte c
  · rw [escapeJsonString_plain (by simpa using hplain) (by simpa using Ne.symm h.1)]
    exact reads_plain (by simpa using hplain) buffer
  · have hescaped : c = 34 ∨ c = 92 ∨ c = 10 ∨ c = 8 ∨ c = 9 ∨ c = 12 ∨ c = 13 := by
      have htable : ∀ c : UInt8, c.toNat < 128 → Escapable c → ¬ PlainByte c →
          c = 34 ∨ c = 92 ∨ c = 10 ∨ c = 8 ∨ c = 9 ∨ c = 12 ∨ c = 13 :=
        CString.forall_ascii (by decide)
      exact htable c hc h hplain
    rcases hescaped with rfl | rfl | rfl | rfl | rfl | rfl | rfl
    · exact reads_escape (x := 34) (by decide) (by decide) rfl rfl rfl buffer
    · exact reads_escape (x := 92) (by decide) (by decide) rfl rfl rfl buffer
    · exact reads_escape (x := 110) (by decide) (by decide) rfl rfl rfl buffer
    · exact reads_escape (x := 98) (by decide) (by decide) rfl rfl rfl buffer
    · exact reads_escape (x := 116) (by decide) (by decide) rfl rfl rfl buffer
    · exact reads_escape (x := 102) (by decide) (by decide) rfl rfl rfl buffer
    · exact reads_escape (x := 114) (by decide) (by decide) rfl rfl rfl buffer

/-- A control character is refused in a string. -/
theorem rejects_control {c : UInt8} (hc : c ≠ 0) (hlow : c.toNat < 32) (buffer : List UInt8) :
    Rejects libc (reading .st .string stack buffer) [c] := by
  refine ⟨[c], [], rfl, by simpa [Ascii] using ⟨hc, by omega⟩, ?_⟩
  have htable : ∀ n < 32, (classOf (n : Nat)).map (stateTransitionTable .st) = none ∨
      (classOf (n : Nat)).map (stateTransitionTable .st) = some .xx := by decide
  show ((jsonParserChar libc c.toNat (reading .st .string stack buffer)).andThen proceed).ok = false
  unfold jsonParserChar
  rw [if_neg (by omega)]
  rcases htable c.toNat hlow with hnone | hxx
  · rw [Option.map_eq_none_iff.1 hnone]
    rfl
  · obtain ⟨k, hk, ht⟩ := Option.map_eq_some_iff.1 hxx
    have hstate : (reading .st .string stack (buffer ++ [c])).state = .st := rfl
    have hadd : addChar c.toNat k (reading .st .string stack buffer) =
        ⟨true, reading .st .string stack (buffer ++ [c]), [], false⟩ :=
      addChar_reading (by omega) (.inl (by simp))
    rw [hk]
    simp only [hadd, Outcome.andThen_mk, hstate, ht]
    rfl

/-- A byte that does not survive is refused. -/
theorem rejects_unescapable {c : UInt8} (hc : c ≠ 0) (h : ¬ Escapable c) (buffer : List UInt8) :
    Rejects libc (reading .st .string stack buffer) (escapeJsonString [c]) := by
  by_cases hapostrophe : c = 39
  · subst hapostrophe
    exact rejects_apostrophe buffer
  · obtain ⟨hlow, hbytes⟩ := not_or.1 fun hor => h ⟨hapostrophe, hor⟩
    have hsame : escapeJsonString [c] = [c] := by
      simp only [List.mem_cons, List.not_mem_nil, or_false, not_or] at hbytes
      obtain ⟨h8, h9, h10, h12, h13⟩ := hbytes
      have hquote : c ≠ 34 := by
        rintro rfl
        exact hlow (by decide)
      have hbackslash : c ≠ 92 := by
        rintro rfl
        exact hlow (by decide)
      simp only [escapeJsonString, if_neg hquote, if_neg hapostrophe, if_neg hbackslash, if_neg h10,
        if_neg h8, if_neg h9, if_neg h12, if_neg h13, List.append_nil]
    rw [hsame]
    exact rejects_control hc (Nat.lt_of_not_le hlow) buffer

/-- **The inside of a value** that survives. -/
theorem reads_escaped {s : List UInt8} (hascii : Ascii s) (hs : ∀ c ∈ s, Escapable c)
    (buffer : List UInt8) : Reads libc (reading .st .string stack buffer) (escapeJsonString s)
      (reading .st .string stack (buffer ++ s)) [] := by
  induction s generalizing buffer with
  | nil =>
    rw [List.append_nil]
    exact .nil _
  | cons c s ih =>
    have hfirst : Reads libc (reading .st .string stack buffer) (escapeJsonString [c])
        (reading .st .string stack (buffer ++ [c])) [] :=
      reads_escapable (hascii c (List.mem_cons_self ..)).2 (hs c (List.mem_cons_self ..)) buffer
    have hrest := ih (fun x hx => hascii x (List.mem_cons_of_mem _ hx))
      (fun x hx => hs x (List.mem_cons_of_mem _ hx)) (buffer ++ [c])
    rw [List.append_assoc] at hrest
    rw [escapeJsonString_cons]
    exact hfirst.append hrest

/-- **The inside of a value** that does not. -/
theorem rejects_escaped {s : List UInt8} (hascii : Ascii s) (hs : ¬ ∀ c ∈ s, Escapable c)
    (buffer : List UInt8) : Rejects libc (reading .st .string stack buffer) (escapeJsonString s) := by
  induction s generalizing buffer with
  | nil => exact absurd (fun c hc => absurd hc (by simp)) hs
  | cons c s ih =>
    obtain ⟨hzero, hc⟩ := hascii c (List.mem_cons_self ..)
    rw [escapeJsonString_cons]
    by_cases hfirst : Escapable c
    · refine (reads_escapable hc hfirst buffer).rejects
        (ih (fun x hx => hascii x (List.mem_cons_of_mem _ hx)) (fun hall => hs ?_) (buffer ++ [c]))
      rintro x hx
      rcases List.mem_cons.1 hx with rfl | hx
      · exact hfirst
      · exact hall x hx
    · exact (rejects_unescapable hzero hfirst buffer).append _

end Values

end Ape.Json
