/-! Finite maps from text. The entries are kept in strictly increasing order of their keys, so two
maps that answer every lookup alike are equal, and listing a map is deterministic. -/

namespace DialectIR

/-- A finite map from text to `α`, listed in order of the keys (by code point). -/
structure Dict (α : Type) where
  entries : List (String × α) := []
  sorted : entries.Pairwise (fun a b => a.1 < b.1) := by exact .nil

namespace Dict

variable {α β : Type}

/-- Puts an entry at its place, instead of an older one with the same key. -/
def insertEntry (key : String) (value : α) : List (String × α) → List (String × α)
  | [] => [(key, value)]
  | entry :: rest =>
      if key < entry.1 then (key, value) :: entry :: rest
      else if key = entry.1 then (key, value) :: rest
      else entry :: insertEntry key value rest

theorem key_mem_insertEntry {key : String} {value : α} {entries : List (String × α)}
    {entry : String × α} (h : entry ∈ insertEntry key value entries) :
    entry = (key, value) ∨ entry ∈ entries := by
  induction entries with
  | nil => simpa [insertEntry] using h
  | cons head rest ih =>
      rw [insertEntry] at h
      split at h
      · simpa using h
      · split at h
        · rcases List.mem_cons.1 h with h | h
          · exact .inl h
          · exact .inr (List.mem_cons_of_mem _ h)
        · rcases List.mem_cons.1 h with h | h
          · exact .inr (h ▸ List.mem_cons_self)
          · exact (ih h).imp_right (List.mem_cons_of_mem _)

theorem sorted_insertEntry {key : String} {value : α} {entries : List (String × α)}
    (h : entries.Pairwise (fun a b => a.1 < b.1)) :
    (insertEntry key value entries).Pairwise (fun a b => a.1 < b.1) := by
  induction entries with
  | nil => simp [insertEntry]
  | cons head rest ih =>
      obtain ⟨hhead, hrest⟩ := List.pairwise_cons.1 h
      rw [insertEntry]
      split
      next hlt =>
        refine List.pairwise_cons.2 ⟨fun entry hentry => ?_, h⟩
        rcases List.mem_cons.1 hentry with rfl | hentry
        · exact hlt
        · exact String.lt_trans hlt (hhead entry hentry)
      next hlt =>
        split
        next heq =>
          exact List.pairwise_cons.2 ⟨fun entry hentry => heq ▸ hhead entry hentry, hrest⟩
        next hne =>
          refine List.pairwise_cons.2 ⟨fun entry hentry => ?_, ih hrest⟩
          rcases key_mem_insertEntry hentry with rfl | hentry
          · exact (String.le_total head.1 key).elim
              (fun hle => Std.lt_of_le_of_ne hle (Ne.symm hne))
              (fun hge => absurd (Std.lt_of_le_of_ne hge hne) hlt)
          · exact hhead entry hentry

theorem lookup_cons_eq_ite (entry : String × α) (rest : List (String × α)) (key : String) :
    (entry :: rest).lookup key = if key = entry.1 then some entry.2 else rest.lookup key := by
  obtain ⟨headKey, headValue⟩ := entry
  by_cases h : key = headKey
  · simp [h]
  · have hb : (key == headKey) = false := by simpa using h
    simp [List.lookup_cons, hb, h]

theorem lookup_insertEntry (key : String) (value : α) (entries : List (String × α))
    (other : String) :
    (insertEntry key value entries).lookup other
      = if other = key then some value else entries.lookup other := by
  induction entries with
  | nil => simp [insertEntry, lookup_cons_eq_ite]
  | cons head rest ih =>
      rw [insertEntry]
      split
      next => simp only [lookup_cons_eq_ite]
      next =>
        split
        next heq => simp only [lookup_cons_eq_ite, ← heq]; split <;> rfl
        next hne =>
          rw [lookup_cons_eq_ite, lookup_cons_eq_ite, ih]
          by_cases h : other = head.1
          · simp [h, Ne.symm hne]
          · simp [h]

/-- The map without entries. -/
def empty : Dict α := {}

instance : Inhabited (Dict α) := ⟨empty⟩

/-- What the map holds under a key. -/
def get? (map : Dict α) (key : String) : Option α := map.entries.lookup key

/-- Sets what the map holds under a key. -/
def insert (map : Dict α) (key : String) (value : α) : Dict α :=
  ⟨insertEntry key value map.entries, sorted_insertEntry map.sorted⟩

/-- Forgets a key. -/
def erase (map : Dict α) (key : String) : Dict α :=
  ⟨map.entries.filter (·.1 != key), map.sorted.filter _⟩

def contains (map : Dict α) (key : String) : Bool := (map.get? key).isSome

/-- The keys in increasing order. -/
def keys (map : Dict α) : List String := map.entries.map (·.1)

def size (map : Dict α) : Nat := map.entries.length

def isEmpty (map : Dict α) : Bool := map.entries.isEmpty

/-- The map of a list of entries; of two entries with the same key the later one counts. -/
def ofList (entries : List (String × α)) : Dict α :=
  entries.foldl (fun map entry => map.insert entry.1 entry.2) empty

@[simp] theorem get?_empty (key : String) : (empty : Dict α).get? key = none := rfl

theorem get?_of_isEmpty {map : Dict α} (h : map.isEmpty = true) (key : String) :
    map.get? key = none := by
  rw [get?, List.isEmpty_iff.1 h]
  rfl

theorem get?_insert (map : Dict α) (key : String) (value : α) (other : String) :
    (map.insert key value).get? other = if other = key then some value else map.get? other :=
  lookup_insertEntry key value map.entries other

theorem get?_erase (map : Dict α) (key other : String) :
    (map.erase key).get? other = if other = key then none else map.get? other := by
  obtain ⟨entries, hsorted⟩ := map
  simp only [get?, erase]
  clear hsorted
  induction entries with
  | nil => simp
  | cons head rest ih =>
      by_cases hk : head.1 = key
      · simp only [List.filter_cons, hk, bne_self_eq_false, Bool.false_eq_true, if_false, ih,
          lookup_cons_eq_ite]
        split <;> simp_all
      · have hkept : (head.1 != key) = true := by simpa using hk
        simp only [List.filter_cons, hkept, if_true, lookup_cons_eq_ite, ih]
        split
        · next h => simp [h, hk]
        · rfl

/-- Every entry is found under its key. -/
theorem get?_of_mem {map : Dict α} {entry : String × α} (h : entry ∈ map.entries) :
    map.get? entry.1 = some entry.2 := by
  obtain ⟨entries, hsorted⟩ := map
  simp only [get?] at h ⊢
  induction entries with
  | nil => cases h
  | cons head rest ih =>
      obtain ⟨hhead, hrest⟩ := List.pairwise_cons.1 hsorted
      rw [lookup_cons_eq_ite]
      rcases List.mem_cons.1 h with rfl | h
      · rw [if_pos rfl]
      · have hne : entry.1 ≠ head.1 := fun heq => absurd (hhead entry h)
          (heq ▸ String.lt_irrefl entry.1)
        rw [if_neg hne, ih hrest h]

/-- What is found under a key is an entry. -/
theorem mem_of_get? {map : Dict α} {key : String} {value : α} (h : map.get? key = some value) :
    (key, value) ∈ map.entries := by
  obtain ⟨before, after, heq, -⟩ := List.lookup_eq_some_iff.1 h
  rw [heq]
  exact List.mem_append_right _ List.mem_cons_self

@[ext] theorem ext_entries {a b : Dict α} (h : a.entries = b.entries) : a = b := by
  obtain ⟨_, _⟩ := a
  obtain ⟨_, _⟩ := b
  subst h
  rfl

instance [DecidableEq α] : DecidableEq (Dict α) := fun a b =>
  decidable_of_iff (a.entries = b.entries) ⟨ext_entries, congrArg entries⟩

end Dict

end DialectIR
