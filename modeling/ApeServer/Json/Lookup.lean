import ApeServer.Json.Forest
import ApeServer.Json.Setters
import ApeServer.Lib.CString

/-!
# Items found by their path

`json_lookup` cuts a path into strings at its dots and goes down the tree with them.  `explode` cuts in
place: it overwrites the dots and keeps where the strings begin, and takes an index back behind which
no string begins.

* `explode`, `jsonLookup` — the functions of the source;
* `segments` — the segments of a path;
* `lookup` — the first match of every segment, level by level;
* `explode_segments` — **the strings are the segments**, and only fifteen places are stored;
* `jsonLookup_eq` — **the loop finds what the recursion finds**.
-/

namespace Ape.Json

/-! ## The functions -/

/-- A store into the array of strings. -/
def storePointer (tP : List (Option Nat)) (i input : Nat) : Option (List (Option Nat)) :=
  if i < tP.length then some (tP.set i (some input)) else none

/-- The loop of `explode`, from index `input` of the string on, where `rest` is still to be read. -/
def explodeLoop (split : UInt8) (limit : Nat) :
    List UInt8 → List UInt8 → List (Option Nat) → Nat → Nat →
      Option (List UInt8 × List (Option Nat) × Nat)
  | [], base, tP, i, _ => some (base, tP, i)
  | c :: rest, base, tP, i, input => do
    let next := rest.headD 0
    let (base, tP, i) ←
      if c = split then
        if next ≠ 0 ∧ next ≠ split then
          (storePointer tP (i + 1) (input + 1)).map fun tP => (base.set input 0, tP, i + 1)
        else some (base.set input 0, tP, i)
      else some (base, tP, i)
    if i + 1 = limit then some (base, tP, i)
    else explodeLoop split limit rest base tP i (input + 1)

/-- **`explode`**: the string as it is cut, with its final null, where its parts begin, and the index
of the last of them. -/
def explode (split : UInt8) (input : List UInt8) (tP : List (Option Nat)) (limit : Nat) :
    Option (List UInt8 × List (Option Nat) × Nat) := do
  explodeLoop split limit input (input ++ [0]) (← storePointer tP 0 0) 0 0

/-- The string that begins at an index. -/
def stringAt (base : List UInt8) (p : Nat) : List UInt8 := cString (base.drop p)

/-- The loop of `json_lookup`, each turn taking one of `fuel`. -/
def lookupLoop (items : List Item) (base : List UInt8) (split : List (Option Nat)) (nTok : Nat) :
    Nat → Option Nat → Nat → Option (Option Nat)
  | _, none, _ => some none
  | 0, some _, _ => none
  | fuel + 1, some head, i =>
    if i ≤ nTok then do
      let it ← items[head]?
      match it.key with
      | none => lookupLoop items base split nTok fuel it.next i
      | some key =>
        let p ← (← split[i]?)
        if CString.strcasecmp (stringAt base p) (cString key) then
          if i = nTok then some (some (it.child.getD head))
          else lookupLoop items base split nTok fuel it.child (i + 1)
        else lookupLoop items base split nTok fuel it.next i
    else some none

/-- **`json_lookup`**, with an array of sixteen places that nothing has been stored in. -/
def jsonLookup (items : List Item) (head : Option Nat) (path : Option (List UInt8)) :
    Option (Option Nat) :=
  match head, path with
  | some head, some path => do
    let (base, split, nTok) ← explode 46 path (List.replicate 16 none) 15
    lookupLoop items base split nTok items.length (some head) 0
  | _, _ => some none

/-! ## What is looked for -/

/-- The segments of a path, of which all but the first are not empty; behind `n` of them the rest is
one segment. -/
def segments : Nat → List UInt8 → List (List UInt8)
  | 0, path => [path]
  | n + 1, path =>
    let rest := (path.dropWhile (· ≠ 46)).dropWhile (· = 46)
    path.takeWhile (· ≠ 46) :: if rest = [] then [] else segments n rest

/-- The first item among the roots whose key is a segment, letters of both cases being alike, with what
is below it. -/
def firstMatch (segment : List UInt8) : Forest (Nat × Item) → Option (Nat × Forest (Nat × Item))
  | .nil => none
  | .node a children rest =>
    if a.2.key.any (fun key => (cString key).map CString.lower = segment.map CString.lower) then
      some (a.1, children)
    else firstMatch segment rest

/-- Level by level the first match; at the last segment its first child, or itself without children. -/
def lookup : List (List UInt8) → Forest (Nat × Item) → Option Nat
  | [], _ => none
  | segment :: rest, F => do
    let (i, children) ← firstMatch segment F
    if rest = [] then some ((children.roots.map Prod.fst).headD i) else lookup rest children

/-! ## The strings -/

theorem cString_append {s : List UInt8} (hs : 0 ∉ s) (rest : List UInt8) :
    cString (s ++ 0 :: rest) = s := by
  have hall : ∀ c ∈ s, decide (c ≠ 0) = true := by
    intro c hc
    simp only [decide_eq_true_eq]
    rintro rfl
    exact hs hc
  rw [cString, List.takeWhile_append_of_pos hall, List.takeWhile_cons_of_neg (by simp),
    List.append_nil]

/-- The loop of `explode` runs over a segment without cutting it. -/
theorem explodeLoop_plain {split : UInt8} {limit : Nat} {seg : List UInt8} (hseg : split ∉ seg)
    (rest base : List UInt8) (tP : List (Option Nat)) {i : Nat} (hi : i + 1 ≠ limit) (input : Nat) :
    explodeLoop split limit (seg ++ rest) base tP i input =
      explodeLoop split limit rest base tP i (input + seg.length) := by
  induction seg generalizing input with
  | nil => rfl
  | cons c seg ih =>
    obtain ⟨hc, hseg⟩ := not_or.1 (mt List.mem_cons.2 hseg)
    rw [List.cons_append, explodeLoop]
    simp only [if_neg (Ne.symm hc), bind, Option.bind_some, if_neg hi]
    rw [ih hseg, List.length_cons, Nat.add_assoc, Nat.add_comm 1]

theorem set_length (pre rest : List UInt8) (c d : UInt8) :
    (pre ++ c :: rest).set pre.length d = pre ++ d :: rest := by
  rw [List.set_append_right _ _ le_rfl, Nat.sub_self, List.set_cons_zero]

/-- Dots with nothing behind them are overwritten. -/
theorem explodeLoop_last (split : UInt8) {limit : Nat} (m : Nat)
    (pre tail : List UInt8) (tP : List (Option Nat)) {i : Nat} (hi : i + 1 ≠ limit) :
    explodeLoop split limit (List.replicate m split) (pre ++ (List.replicate m split ++ tail)) tP i
        pre.length =
      some (pre ++ (List.replicate m 0 ++ tail), tP, i) := by
  induction m generalizing pre with
  | zero => rfl
  | succ m ih =>
    have hnext : ¬ ((List.replicate m split).headD 0 ≠ 0 ∧ (List.replicate m split).headD 0 ≠ split) := by
      cases m <;> simp [List.replicate_succ]
    rw [List.replicate_succ, explodeLoop]
    simp only [if_true, if_neg hnext, bind, Option.bind_some, if_neg hi]
    rw [List.cons_append, set_length]
    have hmore := ih (pre ++ [0])
    rw [List.length_append, List.length_singleton, List.append_assoc, List.singleton_append] at hmore
    rw [hmore, List.append_assoc]
    rfl

/-- Dots in front of a segment are overwritten, and behind the last of them the segment begins. -/
theorem explodeLoop_next {split : UInt8} {limit : Nat} (m : Nat) (pre : List UInt8) {c : UInt8}
    (hzero : c ≠ 0) (hc : c ≠ split) (rest tail : List UInt8) (tP : List (Option Nat)) {i : Nat}
    (hi : i + 1 ≠ limit) (hroom : i + 1 < tP.length) :
    explodeLoop split limit (List.replicate (m + 1) split ++ c :: rest)
        (pre ++ (List.replicate (m + 1) split ++ tail)) tP i pre.length =
      if i + 1 + 1 = limit then
        some (pre ++ (List.replicate (m + 1) 0 ++ tail), tP.set (i + 1) (some (pre.length + (m + 1))), i + 1)
      else explodeLoop split limit (c :: rest) (pre ++ (List.replicate (m + 1) 0 ++ tail))
        (tP.set (i + 1) (some (pre.length + (m + 1)))) (i + 1) (pre.length + (m + 1)) := by
  induction m generalizing pre with
  | zero =>
    have hnext : (c :: rest).headD 0 ≠ 0 ∧ (c :: rest).headD 0 ≠ split := ⟨hzero, hc⟩
    rw [List.replicate_one, List.singleton_append, explodeLoop]
    simp only [if_true, if_pos hnext, storePointer, if_pos hroom, Option.map_some, bind,
      Option.bind_some]
    rw [List.singleton_append, set_length]
    rfl
  | succ m ih =>
    have hnext : ¬ ((List.replicate (m + 1) split ++ c :: rest).headD 0 ≠ 0 ∧
        (List.replicate (m + 1) split ++ c :: rest).headD 0 ≠ split) := by
      simp [List.replicate_succ]
    have hmore := ih (pre ++ [0])
    rw [List.length_append, List.length_singleton, List.append_assoc, List.singleton_append] at hmore
    rw [List.replicate_succ, List.cons_append, explodeLoop]
    simp only [if_true, if_neg hnext, bind, Option.bind_some, if_neg hi]
    rw [List.cons_append, set_length, hmore]
    simp only [List.append_assoc, Nat.add_assoc, Nat.add_comm 1, List.replicate_succ, List.cons_append,
      List.nil_append]

/-- A path is a segment, and then nothing, or dots and behind them nothing or what begins with no
dot. -/
theorem segments_cut (path : List UInt8) :
    ∃ (seg : List UInt8) (m : Nat) (rest : List UInt8), path = seg ++ (List.replicate m 46 ++ rest) ∧
      46 ∉ seg ∧ rest.head? ≠ some 46 ∧ (rest ≠ [] → m ≠ 0) ∧
      ∀ n, segments (n + 1) path = seg :: if rest = [] then [] else segments n rest := by
  let behind := path.dropWhile (· ≠ 46)
  have hdots : behind.takeWhile (· = 46) =
      List.replicate (behind.takeWhile (· = 46)).length 46 := by
    apply List.eq_replicate_of_mem
    intro c hc
    simpa using List.mem_takeWhile_imp hc
  refine ⟨path.takeWhile (· ≠ 46), (behind.takeWhile (· = 46)).length, behind.dropWhile (· = 46),
    ?_, ?_, ?_, ?_, fun n => rfl⟩
  · rw [← hdots, List.takeWhile_append_dropWhile, List.takeWhile_append_dropWhile]
  · intro hc
    simpa using List.mem_takeWhile_imp hc
  · intro hhead
    have hnot := List.head?_dropWhile_not (fun c : UInt8 => decide (c = 46)) behind
    rw [hhead] at hnot
    simp at hnot
  · intro hne hnone
    have hbehind : behind ≠ [] := by
      intro hnil
      rw [hnil] at hne
      exact hne rfl
    obtain ⟨c, rest, hcons⟩ := List.exists_cons_of_ne_nil hbehind
    have hfirst := List.head?_dropWhile_not (fun c : UInt8 => decide (c ≠ 46)) path
    rw [show path.dropWhile (fun c => decide (c ≠ 46)) = c :: rest from hcons, List.head?_cons] at hfirst
    rw [hcons, List.takeWhile_cons_of_pos (by simpa using hfirst)] at hnone
    simp at hnone

/-- **The strings are the segments**: from the beginning of string `i` on, when `n` more can follow,
the loop leaves what is in front of it alone and stores in no place but those. -/
theorem explodeLoop_segments (n : Nat) {rest pre : List UInt8} {tP : List (Option Nat)} {i : Nat}
    (hzero : 0 ∉ rest) (hlen : i + n + 1 ≤ tP.length) (hbegin : tP[i]? = some (some pre.length)) :
    ∃ (cut : List UInt8) (tP' : List (Option Nat)) (last : Nat),
      (if n = 0 then some (pre ++ (rest ++ [0]), tP, i)
        else explodeLoop 46 (i + n + 1) rest (pre ++ (rest ++ [0])) tP i pre.length) =
          some (pre ++ cut, tP', last) ∧
      last + 1 = i + (segments n rest).length ∧
      (∀ j, j ≤ i ∨ i + n < j → tP'[j]? = tP[j]?) ∧
      ∀ j seg, (segments n rest)[j]? = some seg →
        ∃ q, tP'[i + j]? = some (some q) ∧ stringAt (pre ++ cut) q = seg := by
  induction n generalizing rest pre tP i with
  | zero =>
    refine ⟨rest ++ [0], tP, i, if_pos rfl, rfl, fun _ _ => rfl, ?_⟩
    intro j seg hj
    obtain ⟨rfl, rfl⟩ : j = 0 ∧ rest = seg := by
      cases j with
      | zero => exact ⟨rfl, Option.some.inj hj⟩
      | succ j => exact absurd hj (by simp [segments])
    refine ⟨pre.length, hbegin, ?_⟩
    rw [stringAt, List.drop_left, cString_append hzero]
  | succ n ih =>
    obtain ⟨seg, m, behind, rfl, hseg, hhead, hdots, hsegments⟩ := segments_cut rest
    have hsegzero : 0 ∉ seg := fun h => hzero (List.mem_append_left _ h)
    have hi : i + 1 ≠ i + (n + 1) + 1 := by omega
    rw [if_neg (Nat.succ_ne_zero n), explodeLoop_plain hseg _ _ _ hi, hsegments]
    have hbase : pre ++ (seg ++ (List.replicate m 46 ++ behind) ++ [0]) =
        (pre ++ seg) ++ (List.replicate m 46 ++ (behind ++ [0])) := by
      simp only [List.append_assoc]
    rw [hbase, ← List.length_append]
    -- the string that begins here ends at the first dot
    have hfirst : ∀ tail, stringAt (pre ++ (seg ++ 0 :: tail)) pre.length = seg := by
      intro tail
      rw [stringAt, List.drop_left, cString_append hsegzero]
    cases behind with
    | nil =>
      have hlast := explodeLoop_last 46 m (pre ++ seg) [0] tP hi
      rw [List.append_nil, List.nil_append, hlast]
      refine ⟨seg ++ (List.replicate m 0 ++ [0]), tP, i, by simp only [List.append_assoc], rfl,
        fun _ _ => rfl, ?_⟩
      intro j seg' hj
      obtain ⟨rfl, rfl⟩ : j = 0 ∧ seg = seg' := by
        cases j with
        | zero => exact ⟨rfl, Option.some.inj hj⟩
        | succ j => exact absurd hj (by simp)
      refine ⟨pre.length, hbegin, ?_⟩
      have hzeros : ∃ tail, List.replicate m 0 ++ [0] = (0 : UInt8) :: tail := by
        cases m with
        | zero => exact ⟨[], rfl⟩
        | succ m => exact ⟨List.replicate m 0 ++ [0], rfl⟩
      obtain ⟨tail, htail⟩ := hzeros
      rw [htail]
      exact hfirst tail
    | cons c behind =>
      obtain ⟨m, rfl⟩ := Nat.exists_eq_succ_of_ne_zero (hdots (List.cons_ne_nil _ _))
      have hc : c ≠ 0 := by
        rintro rfl
        simp at hzero
      have hdot : c ≠ 46 := by
        rintro rfl
        exact hhead rfl
      have hnext := explodeLoop_next m (pre ++ seg) hc hdot behind (c :: behind ++ [0]) tP hi (by omega)
      rw [hnext]
      -- the rest of the loop, from the next string on
      have hplace : (pre ++ seg).length + (m + 1) = ((pre ++ seg) ++ List.replicate (m + 1) 0).length := by
        simp only [List.length_append, List.length_replicate]
      obtain ⟨cut, tP', last, hloop, hlast, hsame, hstrings⟩ :=
        @ih (c :: behind) ((pre ++ seg) ++ List.replicate (m + 1) 0)
          (tP.set (i + 1) (some ((pre ++ seg).length + (m + 1)))) (i + 1)
          (fun h => hzero (List.mem_append_right _ (List.mem_append_right _ h)))
          (by rw [List.length_set]; omega)
          (by rw [List.getElem?_set_self (by omega), hplace])
      refine ⟨seg ++ (List.replicate (m + 1) 0 ++ cut), tP', last, ?_, ?_, ?_, ?_⟩
      · by_cases hn : n = 0
        · rw [if_pos hn] at hloop
          rw [if_pos (by omega)]
          simpa only [List.append_assoc] using hloop
        · have hlimit : i + 1 + n + 1 = i + (n + 1) + 1 := by omega
          rw [if_neg hn, hlimit, ← hplace] at hloop
          rw [if_neg (by omega)]
          simpa only [List.append_assoc] using hloop
      · rw [if_neg (List.cons_ne_nil _ _), List.length_cons]
        omega
      · intro j hj
        rw [hsame j (by omega), List.getElem?_set_ne (by omega)]
      · intro j seg' hj
        rw [if_neg (List.cons_ne_nil _ _)] at hj
        cases j with
        | zero =>
          obtain rfl := Option.some.inj hj
          refine ⟨pre.length, ?_, hfirst _⟩
          rw [Nat.add_zero, hsame i (by omega), List.getElem?_set_ne (by omega)]
          exact hbegin
        | succ j =>
          obtain ⟨q, hq, hstring⟩ := hstrings j seg' hj
          refine ⟨q, ?_, ?_⟩
          · rw [← hq]
            congr 1
            omega
          · simp only [List.append_assoc] at hstring ⊢
            exact hstring

/-- **`explode`** leaves the segments of the path, and stores in the first fifteen places only. -/
theorem explode_segments {path : List UInt8} (hpath : 0 ∉ path) {split : List (Option Nat)}
    (hsplit : 15 ≤ split.length) :
    ∃ (base : List UInt8) (tP : List (Option Nat)) (last : Nat),
      explode 46 path split 15 = some (base, tP, last) ∧
      last + 1 = (segments 14 path).length ∧ (∀ j, 15 ≤ j → tP[j]? = split[j]?) ∧
      ∀ (j : Nat) (seg : List UInt8), (segments 14 path)[j]? = some seg →
        ∃ q, tP[j]? = some (some q) ∧ stringAt base q = seg := by
  have hfirst : storePointer split 0 0 = some (split.set 0 (some 0)) := if_pos (by omega)
  obtain ⟨base, tP, last, hloop, hlast, hsame, hstrings⟩ :=
    @explodeLoop_segments 14 path [] (split.set 0 (some 0)) 0 hpath
      (by rw [List.length_set]; omega) (by rw [List.getElem?_set_self (by omega)]; rfl)
  refine ⟨base, tP, last, ?_, by omega, ?_, ?_⟩
  · rw [explode, hfirst]
    exact hloop
  · intro j hj
    rw [hsame j (by omega), List.getElem?_set_ne (by omega)]
  · intro j seg hj
    obtain ⟨q, hq, hstring⟩ := hstrings j seg hj
    exact ⟨q, by rw [← hq, Nat.zero_add], hstring⟩

/-! ## The items -/

/-- **The loop finds what the recursion finds**: from a row on, with the segments from `i` on. -/
theorem lookupLoop_eq {items : List Item} {F : Forest (Nat × Item)} {p : Option Nat}
    (h : Holds items F p) {fuel : Nat} (hfuel : F.height ≤ fuel) {base : List UInt8}
    {split : List (Option Nat)} {segs : List (List UInt8)} {nTok : Nat}
    (hlast : nTok + 1 = segs.length)
    (hstrings : ∀ (j : Nat) (seg : List UInt8), segs[j]? = some seg →
      ∃ q, split[j]? = some (some q) ∧ stringAt base q = seg) {i : Nat} (hi : i ≤ nTok) :
    lookupLoop items base split nTok fuel p i = some (lookup (segs.drop i) F) := by
  induction F generalizing p fuel i with
  | nil =>
    obtain rfl : p = none := h
    have hnone : lookup (segs.drop i) .nil = none := by
      cases segs.drop i <;> rfl
    rw [hnone]
    cases fuel <;> rfl
  | node a children rest ihc ihr =>
    obtain ⟨rfl, hit, hchildren, hrest⟩ := h
    obtain ⟨fuel, rfl⟩ : ∃ k, fuel = k + 1 :=
      Nat.exists_eq_add_one.2 (lt_of_lt_of_le (Nat.succ_pos _) hfuel)
    simp only [Forest.height, Nat.add_le_add_iff_right, Nat.max_le] at hfuel
    have hit' : items[a.1]? = some a.2 := hit
    have hlt : i < segs.length := by omega
    obtain ⟨q, hq, hstring⟩ := hstrings i _ (List.getElem?_eq_getElem hlt)
    have hdrop : segs.drop i = segs[i] :: segs.drop (i + 1) := List.drop_eq_getElem_cons hlt
    have hnext := ihr hrest hfuel.2 hi
    -- an item that is no match
    have hmiss : a.2.key.any (fun key => (cString key).map CString.lower = segs[i].map CString.lower) =
        false → lookup (segs.drop i) (.node a children rest) = lookup (segs.drop i) rest := by
      intro hno
      rw [hdrop, lookup, lookup, firstMatch, if_neg (by simp [hno])]
    rw [lookupLoop, if_pos hi, hit']
    simp only [bind, Option.bind_some]
    cases hkey : a.2.key with
    | none =>
      rw [hmiss (by rw [hkey]; rfl)]
      exact hnext
    | some key =>
      simp only [hq, Option.bind_some, hstring]
      split
      case isTrue hcompare =>
        have hmatch : firstMatch segs[i] (.node a children rest) = some (a.1, children) := by
          rw [firstMatch, if_pos]
          rw [hkey, Option.any_some, decide_eq_true_iff]
          exact (CString.strcasecmp_iff.1 hcompare).symm
        rw [hdrop, lookup, hmatch]
        simp only [bind, Option.bind_some]
        by_cases hend : i = nTok
        · rw [if_pos hend, if_pos (List.drop_eq_nil_iff.2 (by omega))]
          cases children with
          | nil =>
            have hnone : a.2.child = none := hchildren
            rw [hnone]
            rfl
          | node b below behind =>
            obtain ⟨hchild, -⟩ := hchildren
            rw [hchild]
            rfl
        · rw [if_neg hend, if_neg (mt List.drop_eq_nil_iff.1 (by omega))]
          exact ihc hchildren hfuel.1 (by omega)
      case isFalse hcompare =>
        rw [hmiss]
        · exact hnext
        · rw [hkey, Option.any_some, decide_eq_false_iff_not]
          intro heq
          exact hcompare (CString.strcasecmp_iff.2 heq.symm)

/-- **Path lookup**: for every forest and every path, the first match of its segments, level by level;
and whatever array of at least fifteen places `explode` is given, it stores in the first fifteen. -/
theorem jsonLookup_eq {items : List Item} {F : Forest (Nat × Item)} {head : Option Nat}
    (h : Holds items F head) {path : List UInt8} (hpath : 0 ∉ path) :
    jsonLookup items head (some path) = some (lookup (segments 14 path) F) ∧
      ∀ split : List (Option Nat), 15 ≤ split.length →
        ∃ (base : List UInt8) (tP : List (Option Nat)) (last : Nat),
          explode 46 path split 15 = some (base, tP, last) ∧ ∀ j : Nat, 15 ≤ j → tP[j]? = split[j]? := by
  constructor
  · cases head with
    | none =>
      obtain rfl := h.eq_none_iff.1 rfl
      have hnone : lookup (segments 14 path) .nil = none := by
        cases segments 14 path <;> rfl
      rw [hnone]
      rfl
    | some i =>
      obtain ⟨base, split, last, hexplode, hlast, -, hstrings⟩ :=
        explode_segments hpath (show 15 ≤ (List.replicate 16 (none : Option Nat)).length by decide)
      rw [jsonLookup, hexplode]
      exact lookupLoop_eq h h.height_le hlast hstrings (Nat.zero_le last)
  · intro split hsplit
    obtain ⟨base, tP, last, hexplode, -, hsame, -⟩ := explode_segments hpath hsplit
    exact ⟨base, tP, last, hexplode, hsame⟩

/-- The object `{"a":{"B":1}}`. -/
def pathForest : Forest (Nat × Item) :=
  .node (0, { child := some 1, childType := .obj })
    (.node (1, { father := some 0, key := some [97], child := some 2, childType := .obj })
      (.node (2, { father := some 1, key := some [66], integer := 1, type := some .integer }) .nil .nil)
      .nil) .nil

/-- In its members, `a..b.` is found. -/
theorem jsonLookup_members :
    jsonLookup (pathForest.nodes.map Prod.snd) (some 1) (some [97, 46, 46, 98, 46]) = some (some 2) ∧
      ∀ split : List (Option Nat), 15 ≤ split.length →
        ∃ (base : List UInt8) (tP : List (Option Nat)) (last : Nat),
          explode 46 [97, 46, 46, 98, 46] split 15 = some (base, tP, last) ∧ ∀ j : Nat, 15 ≤ j → tP[j]? = split[j]? :=
  jsonLookup_eq
    (show Holds (pathForest.nodes.map Prod.snd) (.node (1, _) (.node (2, _) .nil .nil) .nil) (some 1)
      from ⟨rfl, rfl, ⟨rfl, rfl, rfl, rfl⟩, rfl⟩)
    (by decide)

end Ape.Json
