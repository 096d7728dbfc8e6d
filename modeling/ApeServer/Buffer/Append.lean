import ApeServer.Buffer.Basic
import ApeServer.Lib.Runs
import Mathlib.Data.List.TakeWhile

/-!
# Appending to a buffer

A buffer with the block its `data` points to, byte by byte.  Four functions append; the two for
strings copy the zero behind the string as well, and set `used` to the length of the string.

* `BufferMem` — the buffer; a write at or above `size` is `none`;
* `bufferPrepare`, `bufferAppendData`, `bufferAppendChar`, `bufferAppendStringN`,
  `bufferAppendString` — the functions of the source;
* `exec_spec` — what a call leaves, and that it writes below `size`;
* `bufferAppendData_simulates` — data are appended as to a `Buffer`;
* `concatenates_iff` — **appends concatenate** as long as strings are appended to nothing.

Sizes are natural numbers: no block has `2 ^ 63` bytes or more.
-/

namespace Ape

/-! ## The functions -/

/-- `buffer`, with its block; a byte that has not been written is `none`. -/
structure BufferMem where
  data : List (Option UInt8)
  size : Nat
  used : Nat
  deriving DecidableEq, Repr

namespace BufferMem

/-- `malloc`. -/
def malloc (n : Nat) : List (Option UInt8) := List.replicate n none

/-- `realloc`. -/
def realloc (data : List (Option UInt8)) (n : Nat) : List (Option UInt8) :=
  data.take n ++ malloc (n - data.length)

/-- `strlen`. -/
def strlen (string : List UInt8) : Nat := (string.takeWhile (· ≠ 0)).length

/-- `buffer_init`. -/
def bufferInit : BufferMem := ⟨[], 0, 0⟩

/-- `buffer_new`. -/
def bufferNew (size : Nat) : BufferMem :=
  if 0 < size then { bufferInit with size := size, data := malloc size } else bufferInit

/-- `buffer_prepare`. -/
def bufferPrepare (n : Nat) (b : BufferMem) : BufferMem :=
  if b.size = 0 then ⟨malloc n, n, 0⟩
  else if b.size < b.used + n then
    { b with size := b.size + n, data := realloc b.data (b.size + n) }
  else b

/-- `memcpy(b->data + b->used, bytes, n)`. -/
def copy (bytes : List UInt8) (b : BufferMem) : Option BufferMem :=
  if b.used + bytes.length ≤ b.size then
    some { b with
      data := b.data.take b.used ++ bytes.map some ++ b.data.drop (b.used + bytes.length) }
  else none

/-- `buffer_append_data`. -/
def bufferAppendData (bytes : List UInt8) (b : BufferMem) : Option BufferMem := do
  let b ← (b.bufferPrepare bytes.length).copy bytes
  some { b with used := b.used + bytes.length }

/-- `buffer_append_char`. -/
def bufferAppendChar (c : UInt8) (b : BufferMem) : Option BufferMem := do
  let b ← (b.bufferPrepare 1).copy [c]
  some { b with used := b.used + 1 }

/-- `buffer_append_string_n`. -/
def bufferAppendStringN (string : List UInt8) (length : Nat) (b : BufferMem) :
    Option BufferMem := do
  let b ← (b.bufferPrepare (length + 1)).copy (string.take (length + 1))
  some { b with used := length }

/-- `buffer_append_string`. -/
def bufferAppendString (string : List UInt8) (b : BufferMem) : Option BufferMem :=
  b.bufferAppendStringN string (strlen string)

end BufferMem

/-- How a buffer is made. -/
inductive BufferMade where
  | init
  | new (size : Nat)
  deriving DecidableEq, Repr

/-- The buffer that is made. -/
def BufferMade.buffer : BufferMade → BufferMem
  | .init => .bufferInit
  | .new size => .bufferNew size

/-- A call.  A string has a zero, or a byte behind the `length` bytes that are asked for. -/
inductive BufferCall where
  | data (bytes : List UInt8)
  | char (c : UInt8)
  | string (string : List UInt8) (ends : 0 ∈ string)
  | stringN (string : List UInt8) (length : Nat) (ends : length < string.length)

namespace BufferCall

/-- One call. -/
def exec (b : BufferMem) : BufferCall → Option BufferMem
  | data bytes => b.bufferAppendData bytes
  | char c => b.bufferAppendChar c
  | string s _ => b.bufferAppendString s
  | stringN s length _ => b.bufferAppendStringN s length

/-- What a call is to append. -/
def content : BufferCall → List UInt8
  | data bytes => bytes
  | char c => [c]
  | string s _ => s.takeWhile (· ≠ 0)
  | stringN s length _ => s.take length

/-- The two calls for strings. -/
def isString : BufferCall → Bool
  | data _ | char _ => false
  | string .. | stringN .. => true

end BufferCall

/-- A sequence of calls. -/
def BufferMade.run (made : BufferMade) (calls : List BufferCall) : Option BufferMem :=
  calls.foldlM BufferCall.exec made.buffer

/-! ## The promise -/

/-- What a sequence of calls is to append. -/
def appended (calls : List BufferCall) : List UInt8 := calls.flatMap BufferCall.content

/-- What is promised of a sequence of calls. -/
structure Concatenates (made : BufferMade) (calls : List BufferCall) (b : BufferMem) : Prop where
  runs : made.run calls = some b
  data : b.data.take b.used = (appended calls).map some
  used : b.used ≤ b.size

/-- Strings are appended to nothing. -/
def StringsFirst (calls : List BufferCall) : Prop :=
  Runs.Along (fun before c => c.isString = true → appended before = []) calls

/-! ## What a call leaves -/

namespace BufferMem

variable {b : BufferMem}

/-- The block is as large as the buffer says, and no more of it is in use. -/
structure Sized (b : BufferMem) : Prop where
  data : b.data.length = b.size
  used : b.used ≤ b.size

theorem sized_made (made : BufferMade) : Sized made.buffer := by
  cases made with
  | init => exact ⟨rfl, Nat.le_refl 0⟩
  | new size =>
    show Sized (bufferNew size)
    unfold bufferNew
    split
    · exact ⟨List.length_replicate, Nat.zero_le size⟩
    · exact ⟨rfl, Nat.le_refl 0⟩

theorem used_made (made : BufferMade) : made.buffer.used = 0 := by
  cases made with
  | init => rfl
  | new size =>
    show (bufferNew size).used = 0
    unfold bufferNew
    split <;> rfl

/-- **Room is made** behind what is in use. -/
theorem bufferPrepare_spec (hb : Sized b) (n : Nat) :
    Sized (b.bufferPrepare n) ∧ (b.bufferPrepare n).used = b.used ∧
      b.used + n ≤ (b.bufferPrepare n).size ∧
      (b.bufferPrepare n).data.take b.used = b.data.take b.used := by
  have hdata := hb.data
  have hused := hb.used
  unfold bufferPrepare
  split
  · next hzero =>
    have hnone : b.used = 0 := by omega
    rw [hnone]
    exact ⟨⟨List.length_replicate, Nat.zero_le n⟩, rfl, (Nat.zero_add n).le, rfl⟩
  · split
    · refine ⟨⟨?_, by show b.used ≤ b.size + n; omega⟩, rfl, by show _ ≤ b.size + n; omega, ?_⟩
      · show (realloc b.data (b.size + n)).length = b.size + n
        unfold realloc malloc
        rw [List.length_append, List.length_take, List.length_replicate]
        omega
      · show (realloc b.data (b.size + n)).take b.used = _
        unfold realloc
        rw [List.take_append_of_le_length (by rw [List.length_take]; omega), List.take_take]
        congr 1
        omega
    · exact ⟨hb, rfl, by omega, rfl⟩

/-- **A copy** that fits is stored behind the bytes in use, which stay as they are. -/
theorem copy_spec (hb : Sized b) {bytes : List UInt8} (hfits : b.used + bytes.length ≤ b.size) :
    ∃ c, b.copy bytes = some c ∧ c.data.length = c.size ∧ c.size = b.size ∧ c.used = b.used ∧
      c.data.take (b.used + bytes.length) = b.data.take b.used ++ bytes.map some := by
  have hdata := hb.data
  have hlen : (b.data.take b.used ++ bytes.map some).length = b.used + bytes.length := by
    rw [List.length_append, List.length_take, List.length_map]
    omega
  refine ⟨_, if_pos hfits, ?_, rfl, rfl, ?_⟩
  · show (b.data.take b.used ++ bytes.map some ++ b.data.drop (b.used + bytes.length)).length = b.size
    rw [List.length_append, hlen, List.length_drop]
    omega
  · show (b.data.take b.used ++ bytes.map some ++ _).take _ = _
    rw [← hlen, List.take_left]

/-- Room is made, and bytes are copied there. -/
theorem prepare_copy_spec (hb : Sized b) (bytes : List UInt8) :
    ∃ c, (b.bufferPrepare bytes.length).copy bytes = some c ∧ c.data.length = c.size ∧
      c.size = (b.bufferPrepare bytes.length).size ∧ b.used + bytes.length ≤ c.size ∧
      c.used = b.used ∧
      c.data.take (b.used + bytes.length) = b.data.take b.used ++ bytes.map some := by
  obtain ⟨hsized, hused, hroom, htake⟩ := bufferPrepare_spec hb bytes.length
  rw [← hused] at hroom
  obtain ⟨c, hcopy, hdata, hsize, hcused, hctake⟩ := copy_spec hsized hroom
  rw [hused] at hroom hcused hctake
  exact ⟨c, hcopy, hdata, hsize, hsize ▸ hroom, hcused, hctake.trans (by rw [htake])⟩

/-- What a call with some content leaves. -/
structure Appended (b : BufferMem) (content : List UInt8) (used : Nat) (c : BufferMem) : Prop where
  sized : Sized c
  used : c.used = used
  data : c.data.take (b.used + content.length) = b.data.take b.used ++ content.map some

theorem bufferAppendData_spec (hb : Sized b) (bytes : List UInt8) :
    ∃ c, b.bufferAppendData bytes = some c ∧ Appended b bytes (b.used + bytes.length) c := by
  obtain ⟨c, hcopy, hdata, -, hroom, hused, htake⟩ := prepare_copy_spec hb bytes
  refine ⟨{ c with used := c.used + bytes.length }, ?_, ⟨hdata, ?_⟩, ?_, htake⟩
  · unfold bufferAppendData
    rw [hcopy]
    rfl
  · show c.used + bytes.length ≤ c.size
    rwa [hused]
  · show c.used + bytes.length = _
    rw [hused]

/-- The buffer holds what a `Buffer` does. -/
structure Represents (b : BufferMem) (abs : Buffer) : Prop where
  sized : Sized b
  size : abs.size = b.size
  data : b.data.take b.used = abs.data.map some

theorem Represents.used {abs : Buffer} (h : Represents b abs) : abs.used = b.used := by
  have hlen := congrArg List.length h.data
  rw [List.length_take, h.sized.data, Nat.min_eq_left h.sized.used, List.length_map] at hlen
  exact hlen.symm

theorem size_prepare (n : Nat) (abs : Buffer) : (abs.prepare n).size =
    if abs.size = 0 then n else if abs.size < abs.used + n then abs.size + n else abs.size := by
  unfold Buffer.prepare
  split_ifs <;> rfl

theorem size_bufferPrepare (n : Nat) (b : BufferMem) : (b.bufferPrepare n).size =
    if b.size = 0 then n else if b.size < b.used + n then b.size + n else b.size := by
  unfold bufferPrepare
  split_ifs <;> rfl

/-- **Data are appended as to a `Buffer`** in which room is made. -/
theorem bufferAppendData_simulates {abs : Buffer} (h : Represents b abs) (bytes : List UInt8) :
    ∃ c, b.bufferAppendData bytes = some c ∧
      Represents c ((abs.prepare bytes.length).store bytes) := by
  have hused := h.used
  have habs : (abs.prepare bytes.length).size = (b.bufferPrepare bytes.length).size := by
    rw [size_prepare, size_bufferPrepare, h.size, hused]
  obtain ⟨c, hcopy, hdata, hsize, hroom, hcused, htake⟩ := prepare_copy_spec h.sized bytes
  refine ⟨{ c with used := c.used + bytes.length }, ?_, ⟨hdata, ?_⟩, habs.trans hsize.symm, ?_⟩
  · unfold bufferAppendData
    rw [hcopy]
    rfl
  · show c.used + bytes.length ≤ c.size
    rwa [hcused]
  · show c.data.take (c.used + bytes.length) = List.map some (_ ++ bytes.take _)
    rw [hcused, htake, h.data, Buffer.data_prepare,
      List.take_of_length_le (Buffer.le_free_prepare bytes.length), List.map_append]

/-- A character is data of one byte. -/
theorem bufferAppendChar_eq (c : UInt8) (b : BufferMem) :
    b.bufferAppendChar c = b.bufferAppendData [c] := rfl

theorem bufferAppendStringN_spec (hb : Sized b) {string : List UInt8} {length : Nat}
    (hends : length < string.length) : ∃ c, b.bufferAppendStringN string length = some c ∧
      Appended b (string.take length) length c := by
  have hcopied : (string.take (length + 1)).length = length + 1 := by
    rw [List.length_take]
    omega
  obtain ⟨c, hcopy, hdata, -, hroom, -, htake⟩ := prepare_copy_spec hb (string.take (length + 1))
  rw [hcopied] at hcopy hroom htake
  refine ⟨{ c with used := length }, ?_, ⟨hdata, ?_⟩, rfl, ?_⟩
  · unfold bufferAppendStringN
    rw [hcopy]
    rfl
  · show length ≤ c.size
    omega
  · -- the zero is behind what is looked at
    have hlen : (b.data.take b.used).length = b.used := by
      rw [List.length_take, hb.data]
      exact Nat.min_eq_left hb.used
    have hbefore := congrArg (List.take (b.used + length)) htake
    rw [List.take_take, Nat.min_eq_left (by omega)] at hbefore
    show c.data.take (b.used + (string.take length).length) = _
    rw [List.length_take, Nat.min_eq_left (Nat.le_of_lt hends), hbefore]
    generalize b.data.take b.used = before at hlen ⊢
    rw [← hlen, List.take_length_add_append, ← List.map_take, List.take_take,
      Nat.min_eq_left (Nat.le_succ length)]

/-- A string is as long as the bytes before its zero. -/
theorem take_strlen (string : List UInt8) :
    string.take (strlen string) = string.takeWhile (· ≠ 0) := by
  exact (List.prefix_iff_eq_take.1 (List.takeWhile_prefix _)).symm

theorem strlen_lt {string : List UInt8} (hends : 0 ∈ string) : strlen string < string.length := by
  have hstart := List.takeWhile_prefix (fun c : UInt8 => decide (c ≠ 0)) (l := string)
  refine Nat.lt_of_le_of_ne hstart.length_le fun hlen => ?_
  have hall := List.takeWhile_eq_self_iff.1 (hstart.eq_of_length hlen) 0 hends
  simp at hall

end BufferMem

open BufferMem

section Calls

variable {b : BufferMem}

/-- **One call** writes below `size`; one for a string forgets what was in use. -/
theorem exec_spec (hb : Sized b) (call : BufferCall) : ∃ c, call.exec b = some c ∧
    Appended b call.content
      (if call.isString = true then call.content.length else b.used + call.content.length) c := by
  cases call with
  | data bytes => exact bufferAppendData_spec hb bytes
  | char c => exact bufferAppendData_spec hb [c]
  | string s hends =>
    have hspec := bufferAppendStringN_spec hb (strlen_lt hends)
    rw [take_strlen] at hspec
    exact hspec
  | stringN s length hends =>
    have hlen : (s.take length).length = length := by
      rw [List.length_take]
      omega
    obtain ⟨c, hexec, happended⟩ := bufferAppendStringN_spec hb hends
    refine ⟨c, hexec, ?_⟩
    show Appended b (s.take length) (s.take length).length c
    rwa [hlen]

/-! ## Sequences of calls -/

/-- What a sequence of calls leaves. -/
structure RunAppends (calls : List BufferCall) (b : BufferMem) : Prop where
  sized : Sized b
  first : StringsFirst calls → b.data.take b.used = (appended calls).map some
  later : ¬ StringsFirst calls → b.used < (appended calls).length

theorem appended_concat (calls : List BufferCall) (call : BufferCall) :
    appended (calls ++ [call]) = appended calls ++ call.content := by
  unfold appended
  rw [List.flatMap_append, List.flatMap_singleton]

/-- **One more call** adds its content, or replaces it by a string, and the buffer keeps its promise. -/
theorem RunAppends.exec {calls : List BufferCall} {call : BufferCall} {c : BufferMem} {used : Nat}
    (h : RunAppends calls b) (hused : used = if call.isString = true then call.content.length
      else b.used + call.content.length) (happ : Appended b call.content used c) :
    RunAppends (calls ++ [call]) c := by
  have hlen : (b.data.take b.used).length = b.used := by
    rw [List.length_take, h.sized.data]
    exact Nat.min_eq_left h.sized.used
  have hcused := happ.used.trans hused
  refine ⟨happ.sized, fun hfirst => ?_, fun hlater => ?_⟩
  · obtain ⟨hfirst, hcall⟩ := Runs.along_concat.1 hfirst
    have hdata := h.first hfirst
    have hbused : b.used = (appended calls).length := by
      rw [← hlen, hdata, List.length_map]
    have htotal : c.used = b.used + call.content.length := by
      rw [hcused]
      split
      · next hstring =>
        rw [hbused, hcall hstring, List.length_nil, Nat.zero_add]
      · rfl
    rw [htotal, happ.data, hdata, appended_concat, List.map_append]
  · rw [hcused, appended_concat, List.length_append]
    by_cases hfirst : StringsFirst calls
    · -- the call is for a string, and something has been appended
      have hcall : ¬ (call.isString = true → appended calls = []) :=
        fun hcall => hlater (Runs.along_concat.2 ⟨hfirst, hcall⟩)
      obtain ⟨hstring, hsome⟩ := Classical.not_imp.1 hcall
      rw [if_pos hstring]
      have := List.length_pos_iff.2 hsome
      omega
    · have := h.later hfirst
      split <;> omega

/-- **A sequence of calls** writes below `size`. -/
theorem run_appends (made : BufferMade) (calls : List BufferCall) :
    ∃ b, made.run calls = some b ∧ RunAppends calls b := by
  induction calls using List.reverseRecOn with
  | nil =>
    refine ⟨made.buffer, rfl, sized_made made, fun _ => ?_, fun h => absurd Runs.along_nil h⟩
    rw [used_made]
    rfl
  | append_singleton calls call ih =>
    obtain ⟨b, hrun, hb⟩ := ih
    obtain ⟨c, hexec, happ⟩ := exec_spec hb.sized call
    refine ⟨c, ?_, hb.exec rfl happ⟩
    unfold BufferMade.run at hrun ⊢
    rw [List.foldlM_append, hrun]
    simpa using hexec

/-- **Appends concatenate** just when strings are appended to nothing. -/
theorem concatenates_iff (made : BufferMade) (calls : List BufferCall) :
    (∃ b, Concatenates made calls b) ↔ StringsFirst calls := by
  obtain ⟨b, hrun, hb⟩ := run_appends made calls
  constructor
  · rintro ⟨c, hruns, hdata, hused⟩
    obtain rfl : b = c := Option.some.inj (hrun.symm.trans hruns)
    by_contra hlater
    have hlen := congrArg List.length hdata
    rw [List.length_take, hb.sized.data, Nat.min_eq_left hused, List.length_map] at hlen
    exact absurd hlen (Nat.ne_of_lt (hb.later hlater))
  · intro hfirst
    exact ⟨b, hrun, hb.first hfirst, hb.sized.used⟩

/-- **Two strings**: the second is taken for all there is. -/
theorem concatenates_fails :
    ¬ ∀ (made : BufferMade) (calls : List BufferCall), ∃ b, Concatenates made calls b := by
  intro hclaim
  obtain ⟨b, hruns, hdata, -⟩ := hclaim (.new 16)
    [.string [97, 98, 0] (by decide), .string [99, 100, 0] (by decide)]
  have hrun := Option.some.inj (Eq.trans (by rfl) hruns)
  rw [← hrun] at hdata
  exact absurd hdata (by decide)

end Calls

end Ape
