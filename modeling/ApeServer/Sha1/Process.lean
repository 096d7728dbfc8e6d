import ApeServer.Lib.Fips180
import Mathlib.Tactic.Ring

/-!
# `sha1_process`

The words are `unsigned long`s, of 64 bits; what goes over 32 bits stays in them and is cut off only
where a word is put out.  The words of the schedule that are no longer needed are overwritten, and
instead of the five words of a round the roles of five variables are exchanged.

* `sha1Process` — the function of `ape_sha1.c`;
* `Ring` — the sixteen words that are kept;
* `low_five` — five lines are five rounds;
* `low_sha1Process` — **a block is taken as the standard says**, as far as 32 bits go.
-/

namespace Ape.Sha1

open Fips180 (Words rotl word schedule step compress)

/-! ## The function -/

/-- `ctx->state`, or the variables `A` to `E`. -/
structure State where
  a : UInt64
  b : UInt64
  c : UInt64
  d : UInt64
  e : UInt64
deriving DecidableEq

/-- `W`. -/
abbrev Ulongs := Vector UInt64 16

/-- `GET_UINT32_BE`. -/
def getUint32Be (b : List UInt8) (i : Nat) : UInt64 :=
  ((b.getD i 0).toUInt64 <<< 24) ||| ((b.getD (i + 1) 0).toUInt64 <<< 16) |||
    ((b.getD (i + 2) 0).toUInt64 <<< 8) ||| (b.getD (i + 3) 0).toUInt64

/-- `PUT_UINT32_BE`. -/
def putUint32Be (n : UInt64) : List UInt8 :=
  [(n >>> 24).toUInt8, (n >>> 16).toUInt8, (n >>> 8).toUInt8, n.toUInt8]

/-- `S`. -/
def S (x n : UInt64) : UInt64 := (x <<< n) ||| ((x &&& 0xFFFFFFFF) >>> (32 - n))

/-- `W[t & 0x0F]`. -/
def Ulongs.at (W : Ulongs) (t : Nat) : UInt64 := W[Fin.ofNat 16 t]

/-- `R`. -/
def R (t : Nat) (W : Ulongs) : UInt64 × Ulongs :=
  let temp := W.at (t - 3) ^^^ W.at (t - 8) ^^^ W.at (t - 14) ^^^ W.at t
  (S temp 1, W.set (t % 16) (S temp 1) (Nat.mod_lt _ (by decide)))

/-- The last argument of the line `t`: `W[t]` in the first sixteen, then `R(t)`. -/
def operand (t : Nat) (W : Ulongs) : UInt64 × Ulongs := if t < 16 then (W.at t, W) else R t W

/-- The `F` of the line `t`. -/
def F (t : Nat) (x y z : UInt64) : UInt64 :=
  if t < 20 then z ^^^ (x &&& (y ^^^ z))
  else if t < 40 then x ^^^ y ^^^ z
  else if t < 60 then (x &&& y) ||| (z &&& (x ||| y))
  else x ^^^ y ^^^ z

/-- Its `K`. -/
def K (t : Nat) : UInt64 :=
  if t < 20 then 0x5A827999 else if t < 40 then 0x6ED9EBA1
  else if t < 60 then 0x8F1BBCDC else 0xCA62C1D6

/-- `P`: what becomes of `e` and of `b`. -/
def P (t : Nat) (a b c d e x : UInt64) : UInt64 × UInt64 :=
  (e + (S a 5 + F t b c d + K t + x), S b 30)

/-- Five lines, from `P( A, B, C, D, E, … )` to `P( B, C, D, E, A, … )`. -/
def five (t : Nat) (s : State × Ulongs) : State × Ulongs :=
  let (⟨A, B, C, D, E⟩, W) := s
  let (x, W) := operand t W
  let (E, B) := P t A B C D E x
  let (x, W) := operand (t + 1) W
  let (D, A) := P (t + 1) E A B C D x
  let (x, W) := operand (t + 2) W
  let (C, E) := P (t + 2) D E A B C x
  let (x, W) := operand (t + 3) W
  let (B, D) := P (t + 3) C D E A B x
  let (x, W) := operand (t + 4) W
  let (A, C) := P (t + 4) B C D E A x
  (⟨A, B, C, D, E⟩, W)

/-- The lines from `5 * i` on, `k` times five. -/
def lines : Nat → Nat → State × Ulongs → State × Ulongs
  | 0, _, s => s
  | k + 1, i, s => lines k (i + 1) (five (5 * i) s)

/-- The words of a block. -/
def loaded (data : List UInt8) : Ulongs := Vector.ofFn fun i => getUint32Be data (4 * i)

/-- `sha1_process`. -/
def sha1Process (s : State) (data : List UInt8) : State :=
  let r := (lines 16 0 (s, loaded data)).1
  ⟨s.a + r.a, s.b + r.b, s.c + r.c, s.d + r.d, s.e + r.e⟩

/-! ## The lower halves -/

/-- The low 32 bits of the words. -/
def State.low (s : State) : Words :=
  ⟨s.a.toUInt32, s.b.toUInt32, s.c.toUInt32, s.d.toUInt32, s.e.toUInt32⟩

/-- Words agree when their bits do. -/
theorem eq_of_bits {x y : UInt32}
    (h : ∀ i < 32, x.toBitVec.getLsbD i = y.toBitVec.getLsbD i) : x = y :=
  UInt32.toBitVec_inj.1 (BitVec.eq_of_getLsbD_eq h)

/-- The mask has the 32 low bits and no others. -/
theorem getLsbD_mask (i : Nat) : (0xFFFFFFFF#64).getLsbD i = decide (i < 32) := by
  have hmask : 0xFFFFFFFF#64 = (BitVec.allOnes 32).setWidth 64 := by decide
  rw [hmask, BitVec.getLsbD_setWidth, BitVec.getLsbD_allOnes]
  by_cases h : i < 32
  · simp [h, show i < 64 by omega]
  · simp [h]

/-- A rotation looks at the low half only. -/
theorem low_S {n : UInt64} (x : UInt64) (hn : n = 1 ∨ n = 5 ∨ n = 30) :
    (S x n).toUInt32 = rotl x.toUInt32 n.toUInt32 := by
  apply eq_of_bits
  intro i hi
  rcases hn with rfl | rfl | rfl <;>
    simp [S, rotl, hi, getLsbD_mask, UInt32.toBitVec_shiftLeft, Bool.and_comm (decide _)]

/-- The functions of the rounds are those of the standard. -/
theorem low_F (t : Nat) (x y z : UInt64) :
    (F t x y z).toUInt32 = Fips180.f t x.toUInt32 y.toUInt32 z.toUInt32 := by
  apply eq_of_bits
  intro i hi
  unfold F Fips180.f
  split_ifs
  · -- a choice between `y` and `z`
    simp only [UInt64.toUInt32_xor, UInt64.toUInt32_and, UInt32.toBitVec_xor,
      UInt32.toBitVec_and, UInt32.toBitVec_or, UInt32.toBitVec_not, BitVec.getLsbD_xor,
      BitVec.getLsbD_and, BitVec.getLsbD_or, BitVec.getLsbD_not, hi, decide_true, Bool.true_and]
    cases x.toUInt32.toBitVec.getLsbD i <;> cases y.toUInt32.toBitVec.getLsbD i <;>
      cases z.toUInt32.toBitVec.getLsbD i <;> rfl
  · simp
  · -- the majority of the three
    simp only [UInt64.toUInt32_or, UInt64.toUInt32_and, UInt32.toBitVec_and, UInt32.toBitVec_or,
      BitVec.getLsbD_and, BitVec.getLsbD_or]
    cases x.toUInt32.toBitVec.getLsbD i <;> cases y.toUInt32.toBitVec.getLsbD i <;>
      cases z.toUInt32.toBitVec.getLsbD i <;> rfl
  · simp

theorem low_K (t : Nat) : (K t).toUInt32 = Fips180.K t := by
  unfold K Fips180.K
  split_ifs <;> rfl

/-- **A line is a round**, when the roles of the variables are exchanged behind it. -/
theorem low_P {W : Nat → UInt32} {t : Nat} {a b c d e x : UInt64} (hx : x.toUInt32 = W t) :
    State.low ⟨(P t a b c d e x).1, a, (P t a b c d e x).2, c, d⟩ =
      step W (State.low ⟨a, b, c, d, e⟩) t := by
  have h₅ : (S a 5).toUInt32 = rotl a.toUInt32 5 := low_S a (by decide)
  have h₃₀ : (S b 30).toUInt32 = rotl b.toUInt32 30 := low_S b (by decide)
  simp only [State.low, P, step, UInt64.toUInt32_add, h₅, h₃₀, low_F, low_K, hx, Words.mk.injEq,
    and_true]
  ac_rfl

/-! ## The words of the schedule -/

/-- In front of the line `t` the ring has the words of the sixteen lines behind, the first sixteen
to begin with. -/
def Ring (M : Nat → UInt32) (t : Nat) (W : Ulongs) : Prop :=
  ∀ i, t - 16 ≤ i → i < max t 16 → (W.at i).toUInt32 = schedule M i

/-- The word of a line, and the ring behind it. -/
theorem Ring.operand {M : Nat → UInt32} {t : Nat} {W : Ulongs} (h : Ring M t W) :
    (operand t W).1.toUInt32 = schedule M t ∧ Ring M (t + 1) (operand t W).2 := by
  by_cases ht : t < 16
  · rw [Sha1.operand, if_pos ht]
    exact ⟨h t (by omega) (by omega), fun i hlo hhi => h i (by omega) (by omega)⟩
  · rw [Sha1.operand, if_neg ht]
    have hat : ∀ k, t - 16 ≤ k → k < t → (W.at k).toUInt32 = schedule M k :=
      fun k hlo hhi => h k hlo (by omega)
    have hback : W.at t = W.at (t - 16) := by
      have hslot : Fin.ofNat 16 t = Fin.ofNat 16 (t - 16) := Fin.ext (by
        simp only [Fin.val_ofNat]
        omega)
      simp only [Ulongs.at, hslot]
    have hword : (R t W).1.toUInt32 = schedule M t := by
      rw [schedule, if_neg ht, R, hback]
      simp only [low_S _ (n := 1) (by decide), UInt64.toUInt32_xor, hat (t - 3) (by omega) (by omega),
        hat (t - 8) (by omega) (by omega), hat (t - 14) (by omega) (by omega),
        hat (t - 16) (by omega) (by omega)]
      rfl
    refine ⟨hword, fun i hlo hhi => ?_⟩
    by_cases hi : i = t
    · -- the word that was put in place of the oldest one
      subst hi
      rw [← hword]
      simp [R, Ulongs.at, Fin.getElem_fin]
    · have hslot : t % 16 ≠ i % 16 := by omega
      rw [← hat i (by omega) (by omega)]
      simp [R, Ulongs.at, Fin.getElem_fin, Vector.getElem_set_ne, hslot]

/-! ## The rounds -/

/-- **Five lines are five rounds.** -/
theorem low_five {M : Nat → UInt32} {t : Nat} {s : State × Ulongs} (h : Ring M t s.2) :
    (five t s).1.low = [t, t + 1, t + 2, t + 3, t + 4].foldl (step (schedule M)) s.1.low ∧
      Ring M (t + 5) (five t s).2 := by
  obtain ⟨⟨A, B, C, D, E⟩, W⟩ := s
  obtain ⟨hx₀, h₀⟩ := h.operand
  obtain ⟨hx₁, h₁⟩ := h₀.operand
  obtain ⟨hx₂, h₂⟩ := h₁.operand
  obtain ⟨hx₃, h₃⟩ := h₂.operand
  obtain ⟨hx₄, h₄⟩ := h₃.operand
  refine ⟨?_, h₄⟩
  simp only [List.foldl_cons, List.foldl_nil]
  rw [← low_P hx₀, ← low_P hx₁, ← low_P hx₂, ← low_P hx₃, ← low_P hx₄]
  rfl

/-- The lines from `5 * i` on are the rounds from there on. -/
theorem low_lines {M : Nat → UInt32} {k i : Nat} {s : State × Ulongs} (h : Ring M (5 * i) s.2) :
    (lines k i s).1.low = (List.range' (5 * i) (5 * k)).foldl (step (schedule M)) s.1.low := by
  induction k generalizing i s with
  | zero => rfl
  | succ k ih =>
    obtain ⟨hfive, hring⟩ := low_five h
    have hrange : List.range' (5 * i) (5 * (k + 1)) =
        [5 * i, 5 * i + 1, 5 * i + 2, 5 * i + 3, 5 * i + 4] ++ List.range' (5 * (i + 1)) (5 * k) := by
      rw [Nat.mul_succ, Nat.add_comm, ← List.range'_append_1]
      rfl
    have hbehind : Ring M (5 * (i + 1)) (five (5 * i) s).2 := by
      rw [Nat.mul_succ]
      exact hring
    rw [lines, ih hbehind, hfive, hrange, List.foldl_append]

/-- Four bytes are one word in both. -/
theorem low_getUint32Be (b : List UInt8) (i : Nat) : (getUint32Be b i).toUInt32 = word b i := by
  apply eq_of_bits
  intro j hj
  simp [getUint32Be, word, hj]

/-- The words of a block are those of the first sixteen rounds. -/
theorem ring_loaded (data : List UInt8) : Ring (fun t => word data (4 * t)) 0 (loaded data) := by
  intro i _ hi
  have hlt : i < 16 := by omega
  rw [schedule, if_pos hlt, ← low_getUint32Be]
  simp [loaded, Ulongs.at, Nat.mod_eq_of_lt hlt]

/-- **A block is taken as the standard says.** -/
theorem low_sha1Process (s : State) (data : List UInt8) :
    (sha1Process s data).low = compress s.low data := by
  have hrounds : (lines 16 0 (s, loaded data)).1.low =
      (List.range 80).foldl (step (schedule fun t => word data (4 * t))) s.low := by
    rw [List.range_eq_range']
    exact low_lines (k := 16) (i := 0) (s := (s, loaded data)) (ring_loaded data)
  simp only [compress, ← hrounds]
  simp only [sha1Process, State.low, UInt64.toUInt32_add]

end Ape.Sha1
