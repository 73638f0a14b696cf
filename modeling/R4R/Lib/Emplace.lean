import Mathlib.Data.List.Nodup

/-!
# Maps that keep their first entries

A map as the list of its elements, each under the key that `key` gives it, with the insertion that keeps an element
whose key is present, and what is looked up in a list of pairs.
-/

namespace Emplace

universe u v

variable {α : Type u} {κ : Type v} [DecidableEq κ] {key : α → κ}

/-- `emplace` of `std::map` and `std::unordered_map`. -/
def emplace (key : α → κ) (l : List α) (a : α) : List α := if key a ∈ l.map key then l else l ++ [a]

theorem emplace_of_mem {a : α} {l : List α} (h : key a ∈ l.map key) : emplace key l a = l := if_pos h

theorem emplace_of_notMem {a : α} {l : List α} (h : key a ∉ l.map key) : emplace key l a = l ++ [a] := if_neg h

theorem map_key_emplace {a : α} {l : List α} (h : key a ∉ l.map key) :
    (emplace key l a).map key = l.map key ++ [key a] := by
  rw [emplace_of_notMem h, List.map_append]
  rfl

theorem mem_map_key_emplace {k : κ} {a : α} {l : List α} :
    k ∈ (emplace key l a).map key ↔ k ∈ l.map key ∨ k = key a := by
  by_cases h : key a ∈ l.map key
  · rw [emplace_of_mem h]
    constructor
    · exact Or.inl
    · rintro (hk | rfl)
      · exact hk
      · exact h
  · rw [map_key_emplace h]
    simp

theorem nodup_emplace {a : α} {l : List α} (h : (l.map key).Nodup) : ((emplace key l a).map key).Nodup := by
  by_cases ha : key a ∈ l.map key
  · rwa [emplace_of_mem ha]
  · rw [map_key_emplace ha, ← List.concat_eq_append]
    exact List.Nodup.concat ha h

/-- An insertion adds its element, and only under a new key. -/
theorem mem_emplace {l : List α} {a b : α} : b ∈ emplace key l a ↔ b ∈ l ∨ b = a ∧ key a ∉ l.map key := by
  by_cases ha : key a ∈ l.map key
  · rw [emplace_of_mem ha]
    simp [ha]
  · rw [emplace_of_notMem ha]
    simp [ha]

theorem mem_map_key_foldl_emplace {k : κ} {as : List α} : ∀ {l : List α},
    k ∈ (as.foldl (emplace key) l).map key ↔ k ∈ l.map key ∨ k ∈ as.map key := by
  induction as with
  | nil => simp
  | cons a as ih =>
    intro l
    rw [List.foldl_cons, ih, mem_map_key_emplace, List.map_cons, List.mem_cons, or_assoc]

theorem mem_foldl_emplace {as : List α} {b : α} : ∀ {l : List α},
    b ∈ as.foldl (emplace key) l → b ∈ l ∨ b ∈ as := by
  induction as with
  | nil => intro l hb; exact .inl hb
  | cons a as ih =>
    intro l hb
    rcases ih hb with hb | hb
    · rcases mem_emplace.1 hb with hb | ⟨rfl, -⟩
      · exact .inl hb
      · exact .inr (List.mem_cons_self ..)
    · exact .inr (List.mem_cons_of_mem a hb)

theorem nodup_foldl_emplace (as : List α) : ∀ {l : List α}, (l.map key).Nodup →
    ((as.foldl (emplace key) l).map key).Nodup := by
  induction as with
  | nil => exact fun h => h
  | cons a as ih => exact fun h => ih (nodup_emplace h)

/-- Under a key stands the first element inserted with it. -/
theorem find?_foldl_emplace (k : κ) (as : List α) : ∀ l : List α,
    (as.foldl (emplace key) l).find? (fun a => decide (key a = k)) = (l ++ as).find? fun a => decide (key a = k) := by
  induction as with
  | nil => simp
  | cons a as ih =>
    intro l
    rw [List.foldl_cons, ih]
    by_cases ha : key a ∈ l.map key
    · rw [emplace_of_mem ha]
      by_cases hk : key a = k
      · -- an element of `l` has the key already
        obtain ⟨b, hb, hkey⟩ := List.mem_map.1 ha
        have hsome : (l.find? fun a => decide (key a = k)).isSome = true :=
          List.find?_isSome.2 ⟨b, hb, by simp [hkey, hk]⟩
        rw [List.find?_append, List.find?_append, Option.or_of_isSome hsome, Option.or_of_isSome hsome]
      · rw [List.find?_append, List.find?_append, List.find?_cons_of_neg (by simpa using hk)]
    · rw [emplace_of_notMem ha, List.append_assoc]
      rfl

/-- Elements with different keys are all inserted. -/
theorem foldl_emplace_of_nodup {as : List α} : ∀ {l : List α}, ((l ++ as).map key).Nodup →
    as.foldl (emplace key) l = l ++ as := by
  induction as with
  | nil => intro l _; simp
  | cons a as ih =>
    intro l h
    have ha : key a ∉ l.map key := by
      intro hmem
      rw [List.map_append] at h
      exact (List.nodup_append.1 h).2.2 _ hmem (key a) (by simp) rfl
    rw [List.foldl_cons, emplace_of_notMem ha, ih (by rwa [List.append_assoc]), List.append_assoc]
    rfl

/-! ### Sets -/

section Sets

variable [DecidableEq α] {a b : α}

/-- An insertion into a set adds its element. -/
theorem mem_emplace_id {l : List α} : b ∈ emplace id l a ↔ b ∈ l ∨ b = a := by
  have h : b ∈ (emplace id l a).map id ↔ b ∈ l.map id ∨ b = id a := mem_map_key_emplace
  rwa [List.map_id, List.map_id] at h

theorem mem_foldl_emplace_id {as : List α} : ∀ {l : List α}, b ∈ as.foldl (emplace id) l ↔ b ∈ l ∨ b ∈ as := by
  induction as with
  | nil => simp
  | cons a as ih =>
    intro l
    rw [List.foldl_cons, ih, mem_emplace_id, List.mem_cons, or_assoc]

end Sets

/-! ### Looking up -/

section Lookup

variable {β : Type u} {γ : Type v} [BEq β] [LawfulBEq β] {l : List (β × γ)} {b : β} {c : γ}

theorem mem_of_lookup (h : l.lookup b = some c) : (b, c) ∈ l := by
  obtain ⟨l₁, l₂, rfl, -⟩ := List.lookup_eq_some_iff.1 h
  simp

/-- Where the keys differ, every entry is found. -/
theorem lookup_of_mem (hl : (l.map Prod.fst).Nodup) (h : (b, c) ∈ l) : l.lookup b = some c := by
  obtain ⟨l₁, l₂, rfl⟩ := List.append_of_mem h
  refine List.lookup_eq_some_iff.2 ⟨l₁, l₂, rfl, ?_⟩
  intro e he
  rw [List.map_append, List.map_cons] at hl
  have hne := (List.nodup_append.1 hl).2.2 e.1 (List.mem_map_of_mem he) b (List.mem_cons_self ..)
  exact bne_iff_ne.2 hne.symm

end Lookup

/-- A map: its elements, no two of them under one key. -/
structure Table (key : α → κ) where
  elems : List α
  nodup : (elems.map key).Nodup

namespace Table

def empty : Table key := ⟨[], List.nodup_nil⟩

def keys (t : Table key) : List κ := t.elems.map key

def emplace (t : Table key) (a : α) : Table key := ⟨Emplace.emplace key t.elems a, nodup_emplace t.nodup⟩

omit [DecidableEq κ] in
@[simp] theorem keys_empty : (empty : Table key).keys = [] := rfl

@[simp] theorem mem_keys_emplace {t : Table key} {a : α} {k : κ} :
    k ∈ (t.emplace a).keys ↔ k ∈ t.keys ∨ k = key a := mem_map_key_emplace

theorem mem_emplace {t : Table key} {a b : α} :
    b ∈ (t.emplace a).elems ↔ b ∈ t.elems ∨ b = a ∧ key a ∉ t.keys := Emplace.mem_emplace

end Table

end Emplace
