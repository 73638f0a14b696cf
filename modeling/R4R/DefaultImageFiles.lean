import Mathlib.Data.Char
import Mathlib.Data.List.Lex
import Mathlib.Data.List.Sort
import R4R.Util

/-!
# Default image files

`DefaultImageFiles`: the files that a Docker image comes with, as a command in a container prints them or as `save`
has written them.
-/

namespace R4R

open Delimited Lines

structure ImageFileInfo where
  path : List Char
  user : List Char
  group : List Char
  permissions : UInt32
  size : UInt64
  sha1 : List Char
deriving DecidableEq

/-- `std::sort` by path, which may leave entries of one path in any order. -/
structure PathSort where
  sort : List ImageFileInfo → List ImageFileInfo
  perm : ∀ files, (sort files).Perm files
  sorted : ∀ files, ((sort files).map ImageFileInfo.path).Pairwise (· ≤ ·)

/-- Insertion sort by path. -/
def PathSort.insertion : PathSort where
  sort := List.insertionSort fun a b => a.path ≤ b.path
  perm := List.perm_insertionSort _
  sorted files := by
    have : Std.Total fun a b : ImageFileInfo => a.path ≤ b.path := ⟨fun a b => le_total a.path b.path⟩
    have : IsTrans ImageFileInfo fun a b => a.path ≤ b.path := ⟨fun a b c => le_trans⟩
    exact List.pairwise_map.2 (List.pairwise_insertionSort _ files)

structure DefaultImageFiles where
  files : List ImageFileInfo
deriving DecidableEq

namespace DefaultImageFiles

/-- One turn of the loop of `from_stream`. -/
def parseLine (line : List Char) : Option ImageFileInfo :=
  match split kDelimUtf8 line with
  | path :: user :: group :: sizeStr :: permStr :: sha1 :: _ =>
    if sizeStr = "error".toList ∨ sha1 = "error".toList then none
    else
      (stoull sizeStr).bind fun size =>
        (stoull permStr).map fun perm => ⟨path, user, group, perm.toUInt32, size, sha1⟩
  | _ => none

/-- `DefaultImageFiles::from_stream`. -/
def fromStream (order : PathSort) (text : List Char) : DefaultImageFiles :=
  ⟨order.sort ((getLines text).filterMap parseLine)⟩

/-- The line that `save` writes for a file. -/
def lineOf (info : ImageFileInfo) : List Char :=
  kDelimUtf8.intercalate [info.path, info.user, info.group, Nat.toDigits 10 info.size.toNat,
    Nat.toDigits 10 info.permissions.toNat, info.sha1]

/-- `DefaultImageFiles::save`. -/
def save (d : DefaultImageFiles) : List Char := unlines (d.files.map lineOf)

/-- The paths that `load_image_default_files` adds to the ignore map. -/
def paths (d : DefaultImageFiles) : List (List Char) := d.files.map ImageFileInfo.path

/-! ### Reading back what is saved -/

/-- The texts of an entry that `from_stream` has read. -/
structure Printable (info : ImageFileInfo) : Prop where
  delimiter : ∀ field ∈ [info.path, info.user, info.group, info.sha1], ¬ kDelimUtf8 <:+: field
  newline : ∀ field ∈ [info.path, info.user, info.group, info.sha1], '\n' ∉ field
  sha1 : info.sha1 ≠ "error".toList

private theorem printable_of_parseLine {line : List Char} {info : ImageFileInfo} (hline : '\n' ∉ line)
    (h : parseLine line = some info) : Printable info := by
  have hfields : ∀ field ∈ split kDelimUtf8 line, ¬ kDelimUtf8 <:+: field ∧ '\n' ∉ field := fun field hf =>
    ⟨not_infix_of_mem_split kDelimUtf8_ne_nil hf, fun hc => hline (subset_of_mem_pieces _ _ field hf hc)⟩
  simp only [parseLine] at h
  split at h
  · rename_i path user group sizeStr permStr sha1 more hsplit
    split at h
    · cases h
    · rename_i herror
      obtain ⟨size, -, h⟩ := Option.bind_eq_some_iff.1 h
      obtain ⟨perm, -, rfl⟩ := Option.map_eq_some_iff.1 h
      rw [hsplit] at hfields
      refine ⟨fun field hf => (hfields field ?_).1, fun field hf => (hfields field ?_).2, fun he => herror (.inr he)⟩
      all_goals
        simp only [List.mem_cons, List.not_mem_nil, or_false] at hf ⊢
        tauto
  · cases h

/-- An entry that has been read and saved is read again. -/
theorem parseLine_lineOf {info : ImageFileInfo} (h : Printable info) : parseLine (lineOf info) = some info := by
  have hdigits : ∀ n : Nat, ¬ kDelimUtf8 <:+: Nat.toDigits 10 n := by
    intro n hi
    have hmem := hi.subset (List.mem_cons_self ..)
    exact absurd (Nat.isDigit_of_mem_toDigits (by decide) (by decide) hmem) (by decide)
  have herror : ∀ n : Nat, Nat.toDigits 10 n ≠ "error".toList := by
    intro n he
    have hmem : 'e' ∈ Nat.toDigits 10 n := by rw [he]; decide
    exact absurd (Nat.isDigit_of_mem_toDigits (by decide) (by decide) hmem) (by decide)
  have hsplit : split kDelimUtf8 (lineOf info) = [info.path, info.user, info.group, Nat.toDigits 10 info.size.toNat,
      Nat.toDigits 10 info.permissions.toNat, info.sha1] := by
    refine split_intercalate kDelimUtf8_ne_nil unbordered_kDelimUtf8 (by simp) ?_
    have hfields := h.delimiter
    simp only [List.mem_cons, List.not_mem_nil, or_false, forall_eq_or_imp, forall_eq] at hfields ⊢
    exact ⟨hfields.1, hfields.2.1, hfields.2.2.1, hdigits _, hdigits _, hfields.2.2.2⟩
  have hperm : stoull (Nat.toDigits 10 info.permissions.toNat) = some info.permissions.toUInt64 :=
    stoull_toDigits info.permissions.toUInt64
  rw [parseLine, hsplit]
  simp only [herror, h.sha1, or_self, if_false, stoull_toDigits, hperm, Option.bind_some, Option.map_some]
  simp

private theorem newline_notMem_lineOf {info : ImageFileInfo} (h : Printable info) : '\n' ∉ lineOf info := by
  have hdigits : ∀ n : Nat, '\n' ∉ Nat.toDigits 10 n := fun n hmem =>
    absurd (Nat.isDigit_of_mem_toDigits (by decide) (by decide) hmem) (by decide)
  have hfields := h.newline
  have hdelim : '\n' ∉ kDelimUtf8 := by decide
  simp only [List.mem_cons, List.not_mem_nil, or_false, forall_eq_or_imp, forall_eq] at hfields
  simp only [lineOf, List.intercalate_cons_cons, List.intercalate_singleton, List.mem_append, not_or]
  tauto

private theorem printable_fromStream {order : PathSort} {text : List Char} :
    ∀ info ∈ (fromStream order text).files, Printable info := by
  intro info hinfo
  obtain ⟨line, hline, hparse⟩ := List.mem_filterMap.1 ((order.perm _).mem_iff.1 hinfo)
  exact printable_of_parseLine (newline_notMem_of_mem_getLines hline) hparse

/-- The entries of a saved list are those of the list. -/
private theorem filterMap_parseLine_save {d : DefaultImageFiles} (h : ∀ info ∈ d.files, Printable info) :
    (getLines d.save).filterMap parseLine = d.files := by
  have hlines : getLines d.save = d.files.map lineOf := by
    refine getLines_unlines fun l hl => ?_
    obtain ⟨info, hinfo, rfl⟩ := List.mem_map.1 hl
    exact newline_notMem_lineOf (h info hinfo)
  rw [hlines, List.filterMap_map]
  exact (List.filterMap_congr fun info hinfo => parseLine_lineOf (h info hinfo)).trans List.filterMap_some

/-- A saved list has the paths of the list when it is read again. -/
theorem paths_fromStream_save (order : PathSort) (text : List Char) :
    (fromStream order (fromStream order text).save).paths = (fromStream order text).paths := by
  refine List.Perm.eq_of_pairwise' (r := (· ≤ ·)) (order.sorted _) (order.sorted _) (List.Perm.map _ ?_)
  exact (order.perm _).trans (List.Perm.of_eq (filterMap_parseLine_save printable_fromStream))

/-- A saved list is read back in its order, whatever the sort does with equal paths, when no two lines that were read
have one path. -/
theorem fromStream_save (order order' : PathSort) (text : List Char)
    (hpaths : (((getLines text).filterMap parseLine).map ImageFileInfo.path).Nodup) :
    fromStream order' (fromStream order text).save = fromStream order text := by
  have hread := order.perm ((getLines text).filterMap parseLine)
  have hagain : (fromStream order' (fromStream order text).save).files.Perm (fromStream order text).files :=
    (order'.perm _).trans (List.Perm.of_eq (filterMap_parseLine_save printable_fromStream))
  -- entries of one path are the same entry
  have hinj : ∀ a b, a ∈ (fromStream order' (fromStream order text).save).files → b ∈ (fromStream order text).files →
      a.path ≤ b.path → b.path ≤ a.path → a = b := by
    intro a b ha hb hab hba
    exact List.inj_on_of_nodup_map hpaths (hread.mem_iff.1 (hagain.mem_iff.1 ha)) (hread.mem_iff.1 hb)
      (le_antisymm hab hba)
  exact congrArg DefaultImageFiles.mk (List.Perm.eq_of_pairwise hinj (List.pairwise_map.1 (order'.sorted _))
    (List.pairwise_map.1 (order.sorted _)) hagain)

theorem fromStream_save_two :
    let text := unlines ["/b\u00c2\u00a0u\u00c2\u00a0g\u00c2\u00a07x\u00c2\u00a0-1\u00c2\u00a0s\u00c2".toList,
      "bad".toList, "/a\u00c2\u00a0\u00c2\u00a0\u00c2\u00a0 8\u00c2\u00a00644\u00c2\u00a0".toList]
    fromStream .insertion (fromStream .insertion text).save = fromStream .insertion text :=
  fromStream_save _ _ _ (by decide +kernel)

end DefaultImageFiles

end R4R
