import ApeServer.Codec.Decode
import ApeServer.Table.Chains
import ApeServer.Table.Linked
import ApeServer.Table.Lookup
import ApeServer.WebSocket.Lengths

/-!
# Pipes

Every pipe has a private and a public id, random words that are drawn until they are not yet in the
table of their kind, and the same words in base64.  No pipe is ever taken out of a table.

* `apePipeGenId`, `apePipeNew` — the functions of `ape_pipe.c`;
* `Registered` — the invariant of a table: it has the ids of all pipes, in the order they were made;
* `genId_eq` — **the word that is taken is the first that is no id**;
* `apePipeNew_piped` — a pipe that is made keeps the invariant of both tables.
-/

namespace Ape.User

open Assoc (first)
open Codec (base64 base64EncodeB)
open Table (Holds Htable hashtblAppend64 hashtblSeek64 intKeys)
open WebSocket (memory)

/-! ## The source -/

/-- One kind of id: `char str[16]` and `bin`. -/
structure PipeId where
  str : List UInt8
  bin : UInt64
  deriving DecidableEq, Repr

/-- `ape_pipe`, with the user that `link` points to. -/
structure ApePipe where
  priv : PipeId
  pub : PipeId
  link : Option Nat
  deriving DecidableEq, Repr

/-- What an id gets from outside: the words that are read from `/dev/urandom`, where `malloc` puts the
item of the table, and what is in the memory of `str`. -/
structure Draw where
  words : List UInt64
  at' : Nat
  str : List UInt8

/-- The pipes by their addresses, of which no two are ever the same, and the two tables of them. -/
structure Pipes where
  made : List ApePipe
  priv : Htable UInt64 Nat
  pub : Htable UInt64 Nat

/-- A store of some bytes at the start of an array. -/
def putBytes (bytes array : List UInt8) : List UInt8 := bytes ++ array.drop bytes.length

/-- `base64_encode_b` of the bytes of a word, with its NUL. -/
def wordText (w : UInt64) : List UInt8 := base64EncodeB (memory 8 w.toNat) ++ [0]

/-- The loop of `ape_pipe_gen_id`: words are drawn until one is not found.  `none` is a loop that is
still at it behind the last word. -/
def genId (h : Htable UInt64 Nat) : List UInt64 → Option UInt64
  | [] => none
  | w :: words =>
    match hashtblSeek64 w h with
    | none => none
    | some (some _) => genId h words
    | some none => some w

/-- `ape_pipe_gen_id` for the pipe at an address.  Each word is written over the one before. -/
def apePipeGenId (d : Draw) (pipe : Nat) (h : Htable UInt64 Nat) :
    Option (PipeId × Htable UInt64 Nat) := do
  let bin ← genId h d.words
  let h ← hashtblAppend64 d.at' bin (some pipe) h
  return (⟨putBytes (wordText bin) d.str, bin⟩, h)

/-- `APE_pipe_new`. -/
def apePipeNew (dpriv dpub : Draw) (s : Pipes) : Option Pipes := do
  let r ← apePipeGenId dpriv s.made.length s.priv
  let r' ← apePipeGenId dpub s.made.length s.pub
  return ⟨s.made ++ [⟨r.1, r'.1, none⟩], r.2, r'.2⟩

/-! ## A table of ids -/

/-- The table has the words `bins`, the ids of the pipes in their order, and is in order itself. -/
structure Registered (h : Htable UInt64 Nat) (bins : List UInt64) : Prop where
  nodup : bins.Nodup
  holds : ∃ cells, Holds intKeys h
    ⟨(bins.zipIdx.map fun e => (e.1, some e.2)).reverse, false⟩ cells none

theorem registered_init : Registered .init [] := ⟨List.nodup_nil, [], Table.holds_init intKeys⟩

section Registered

variable {h : Htable UInt64 Nat} {bins : List UInt64}

/-- The word of a pipe is found, and leads to that pipe. -/
theorem Registered.seek (hr : Registered h bins) {i : Nat} {w : UInt64} (hw : bins[i]? = some w) :
    hashtblSeek64 w h = some (some i) := by
  obtain ⟨cells, hholds⟩ := hr.holds
  refine (Table.seek_holds hholds w).trans ?_
  have hmem : (w, some i) ∈ (bins.zipIdx.map fun e => (e.1, some e.2)).reverse := by
    rw [List.mem_reverse, List.mem_map]
    exact ⟨(w, i), List.mem_zipIdx_iff_getElem?.2 hw, rfl⟩
  have hall : ∀ e ∈ (bins.zipIdx.map fun e => (e.1, some e.2)).reverse,
      intKeys.entry w e.1 = true → e = (w, some i) := by
    intro e he hentry
    rw [List.mem_reverse, List.mem_map] at he
    obtain ⟨⟨w', j⟩, hj, rfl⟩ := he
    rw [Table.intKeys_entry] at hentry
    obtain rfl : w' = w := by simpa using hentry
    rw [List.mem_zipIdx_iff_getElem?] at hj
    have hij : j = i := by
      obtain ⟨hi', -⟩ := List.getElem?_eq_some_iff.1 hj
      exact (List.getElem?_inj hi' hr.nodup).1 (hj.trans hw.symm)
    rw [hij]
  cases hfirst : first (intKeys.entry w) (bins.zipIdx.map fun e => (e.1, some e.2)).reverse with
  | none =>
    unfold first at hfirst
    rw [List.find?_eq_none] at hfirst
    exact absurd (intKeys.entry_refl w) (hfirst _ hmem)
  | some e =>
    obtain ⟨he, hentry⟩ := Assoc.first_some hfirst
    rw [hall e he hentry]
    rfl

/-- A word that is no id finds nothing. -/
theorem Registered.seek_none (hr : Registered h bins) {w : UInt64} (hw : w ∉ bins) :
    hashtblSeek64 w h = some none := by
  obtain ⟨cells, hholds⟩ := hr.holds
  refine (Table.seek_holds hholds w).trans ?_
  have hnone : first (intKeys.entry w) (bins.zipIdx.map fun e => (e.1, some e.2)).reverse =
      none := by
    unfold first
    rw [List.find?_eq_none]
    intro e he
    rw [List.mem_reverse, List.mem_map] at he
    obtain ⟨⟨w', j⟩, hj, rfl⟩ := he
    rw [Table.intKeys_entry]
    rintro heq
    obtain rfl : w' = w := by simpa using heq
    exact hw (List.mem_of_getElem? (List.mem_zipIdx_iff_getElem?.1 hj))
  rw [hnone]
  rfl

/-- **The word that is taken** is the first that is no id. -/
theorem genId_eq (hr : Registered h bins) (words : List UInt64) :
    genId h words = words.find? fun w => w ∉ bins := by
  induction words with
  | nil => rfl
  | cons w words ih =>
    rw [genId]
    by_cases hw : w ∈ bins
    · obtain ⟨i, hi⟩ := List.mem_iff_getElem?.1 hw
      rw [hr.seek hi, List.find?_cons_of_neg (by simpa using hw)]
      exact ih
    · rw [hr.seek_none hw, List.find?_cons_of_pos (by simpa using hw)]

/-- An append of a word that is no id. -/
theorem Registered.append (hr : Registered h bins) {w : UInt64} (hw : w ∉ bins) (at' : Nat) :
    ∃ h', hashtblAppend64 at' w (some bins.length) h = some h' ∧ Registered h' (bins ++ [w]) := by
  obtain ⟨cells, hholds⟩ := hr.holds
  obtain ⟨h', cells', before', happend, hholds'⟩ :=
    Table.append_holds hholds at' w (some bins.length)
  have hany : ((bins.zipIdx.map fun e => (e.1, some e.2)).reverse.any
      fun e => intKeys.entry w e.1) = false := by
    rw [List.any_eq_false]
    intro e he
    rw [List.mem_reverse, List.mem_map] at he
    obtain ⟨⟨w', j⟩, hj, rfl⟩ := he
    rw [Table.intKeys_entry]
    intro heq
    obtain rfl : w' = w := by simpa using heq
    exact hw (List.mem_of_getElem? (List.mem_zipIdx_iff_getElem?.1 hj))
  rw [Table.Book.append, hany, if_neg Bool.false_ne_true] at hholds'
  obtain rfl := hholds'.fresh rfl
  refine ⟨h', happend, List.nodup_append'.2 ⟨hr.nodup, List.nodup_singleton w, ?_⟩, cells', ?_⟩
  · simpa [List.disjoint_singleton] using hw
  · simpa [List.zipIdx_append] using hholds'

/-- **One id of a new pipe**, or none when the words run out. -/
theorem apePipeGenId_eq (hr : Registered h bins) (d : Draw) :
    (∃ w h', d.words.find? (fun w => w ∉ bins) = some w ∧
      apePipeGenId d bins.length h = some (⟨putBytes (wordText w) d.str, w⟩, h') ∧
      Registered h' (bins ++ [w])) ∨
    (d.words.find? (fun w => w ∉ bins) = none ∧ apePipeGenId d bins.length h = none) := by
  unfold apePipeGenId
  rw [genId_eq hr]
  cases hfind : d.words.find? fun w => w ∉ bins with
  | none => exact .inr ⟨rfl, rfl⟩
  | some w =>
    have hw : w ∉ bins := by simpa using List.find?_some hfind
    obtain ⟨h', happend, hr'⟩ := hr.append hw d.at'
    refine .inl ⟨w, h', rfl, ?_, hr'⟩
    simp only [bind, Option.bind_some, happend, pure]

end Registered

/-! ## Pipes -/

/-- The two tables have the private and the public ids of the pipes. -/
structure Piped (s : Pipes) : Prop where
  priv : Registered s.priv (s.made.map fun p => p.priv.bin)
  pub : Registered s.pub (s.made.map fun p => p.pub.bin)

/-- No pipe. -/
def Pipes.none : Pipes := ⟨[], .init, .init⟩

theorem piped_none : Piped .none := ⟨registered_init, registered_init⟩

/-- There are words among those that are drawn that are not yet ids of their kind. -/
def Drawn (dpriv dpub : Draw) (s : Pipes) : Prop :=
  (∃ w ∈ dpriv.words, ∀ p ∈ s.made, p.priv.bin ≠ w) ∧
    ∃ w ∈ dpub.words, ∀ p ∈ s.made, p.pub.bin ≠ w

/-- **A pipe is made** if and only if there are words for it, and then it has them. -/
theorem apePipeNew_piped {s : Pipes} (hs : Piped s) (dpriv dpub : Draw) :
    (Drawn dpriv dpub s ∧ ∃ s' w w', apePipeNew dpriv dpub s = some s' ∧
      s'.made = s.made ++ [⟨⟨putBytes (wordText w) dpriv.str, w⟩,
        ⟨putBytes (wordText w') dpub.str, w'⟩, .none⟩] ∧ Piped s') ∨
    (¬ Drawn dpriv dpub s ∧ apePipeNew dpriv dpub s = .none) := by
  have hsome : ∀ (f : ApePipe → UInt64) (words : List UInt64) (w : UInt64),
      words.find? (fun w => w ∉ s.made.map f) = some w →
        ∃ w ∈ words, ∀ p ∈ s.made, f p ≠ w := fun f words w h => by
    refine ⟨w, List.mem_of_find?_eq_some h, fun p hp hw => ?_⟩
    have hnot := List.find?_some h
    simp only [decide_eq_true_eq] at hnot
    exact hnot (hw ▸ List.mem_map_of_mem hp)
  have hnone : ∀ (f : ApePipe → UInt64) (words : List UInt64),
      words.find? (fun w => w ∉ s.made.map f) = .none →
        ¬ ∃ w ∈ words, ∀ p ∈ s.made, f p ≠ w := by
    rintro f words h ⟨w, hw, hfresh⟩
    rw [List.find?_eq_none] at h
    refine h w hw (by simpa using fun p hp => hfresh p hp)
  have hpriv := apePipeGenId_eq hs.priv dpriv
  have hpub := apePipeGenId_eq hs.pub dpub
  rw [List.length_map] at hpriv hpub
  unfold apePipeNew
  rcases hpriv with ⟨w, h, hfind, hgen, hr⟩ | ⟨hfind, hgen⟩
  · rcases hpub with ⟨w', h', hfind', hgen', hr'⟩ | ⟨hfind', hgen'⟩
    · refine .inl ⟨⟨hsome _ _ w hfind, hsome _ _ w' hfind'⟩,
        ⟨s.made ++ [⟨⟨putBytes (wordText w) dpriv.str, w⟩,
          ⟨putBytes (wordText w') dpub.str, w'⟩, .none⟩], h, h'⟩, w, w', ?_, rfl, ⟨?_, ?_⟩⟩
      · simp only [hgen, hgen', bind, Option.bind_some, pure]
      · simpa using hr
      · simpa using hr'
    · refine .inr ⟨fun hdrawn => hnone _ _ hfind' hdrawn.2, ?_⟩
      simp only [hgen, hgen', bind, Option.bind_some, Option.bind_none]
  · refine .inr ⟨fun hdrawn => hnone _ _ hfind hdrawn.1, ?_⟩
    simp only [hgen, bind, Option.bind_none]

end Ape.User
