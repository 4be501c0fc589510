/-! Maps that keep their keys in the order in which they were first inserted. -/

namespace GrammarTrees

structure OrderedMap (κ υ : Type) where
  entries : List (κ × υ)

namespace OrderedMap

variable {κ υ : Type}

def empty : OrderedMap κ υ := ⟨[]⟩

instance : Inhabited (OrderedMap κ υ) := ⟨empty⟩

def keys (m : OrderedMap κ υ) : List κ := m.entries.map Prod.fst

def values (m : OrderedMap κ υ) : List υ := m.entries.map Prod.snd

variable [DecidableEq κ]

def get? (m : OrderedMap κ υ) (key : κ) : Option υ :=
  (m.entries.find? (·.1 = key)).map Prod.snd

def contains (m : OrderedMap κ υ) (key : κ) : Bool := (m.get? key).isSome

/-- Gives `key` the value `value` in a list of entries, at its place or else at the end. -/
def putEntry (key : κ) (value : υ) : List (κ × υ) → List (κ × υ)
  | [] => [(key, value)]
  | e :: es => if e.1 = key then (key, value) :: es else e :: putEntry key value es

/-- A key that is present keeps its place and takes the new value. -/
def insert (m : OrderedMap κ υ) (key : κ) (value : υ) : OrderedMap κ υ :=
  ⟨putEntry key value m.entries⟩

/-- The map with the given entries inserted one after the other. -/
def ofList (entries : List (κ × υ)) : OrderedMap κ υ :=
  entries.foldl (fun m e => m.insert e.1 e.2) empty

theorem keys_insert (m : OrderedMap κ υ) (key : κ) (value : υ) :
    (m.insert key value).keys = if key ∈ m.keys then m.keys else m.keys ++ [key] := by
  obtain ⟨es⟩ := m
  simp only [insert, keys]
  induction es with
  | nil => simp [putEntry]
  | cons e es ih =>
    by_cases h : e.1 = key
    · simp [putEntry, h]
    · have h' : key ≠ e.1 := Ne.symm h
      simp only [putEntry, if_neg h, List.map_cons, ih, List.mem_cons, h', false_or]
      split <;> simp_all

theorem get?_insert (m : OrderedMap κ υ) (key : κ) (value : υ) (key' : κ) :
    (m.insert key value).get? key' = if key' = key then some value else m.get? key' := by
  obtain ⟨es⟩ := m
  simp only [get?, insert]
  induction es with
  | nil =>
    rw [putEntry, List.find?_singleton]
    by_cases hk : key' = key
    · simp [hk]
    · simp [hk, Ne.symm hk]
  | cons e es ih =>
    rw [putEntry]
    by_cases he : e.1 = key
    · by_cases hk : key' = key
      · simp [he, hk]
      · simp [he, hk, Ne.symm hk]
    · by_cases hk : e.1 = key'
      · subst hk
        simp [he]
      · simpa [he, hk] using ih

section New

variable {m : OrderedMap κ υ} {key : κ}

theorem mem_entries_of_get? {value : υ} (h : m.get? key = some value) :
    (key, value) ∈ m.entries := by
  obtain ⟨e, he, rfl⟩ := Option.map_eq_some_iff.mp h
  have hkey := List.find?_some he
  rw [decide_eq_true_eq] at hkey
  exact hkey ▸ List.mem_of_find?_eq_some he

theorem not_mem_keys_of_get? (h : m.get? key = none) : key ∉ m.keys := by
  intro hmem
  obtain ⟨e, he, rfl⟩ := List.mem_map.mp hmem
  rw [get?, Option.map_eq_none_iff, List.find?_eq_none] at h
  exact h e he (by simp)

theorem putEntry_of_not_mem (value : υ) {es : List (κ × υ)} (h : key ∉ es.map Prod.fst) :
    putEntry key value es = es ++ [(key, value)] := by
  induction es with
  | nil => rfl
  | cons e es ih =>
    rw [List.map_cons, List.mem_cons, not_or] at h
    rw [putEntry, if_neg (Ne.symm h.1), ih h.2]
    rfl

variable (h : m.get? key = none) (value : υ)
include h

/-- A new key is inserted at the end. -/
theorem entries_insert : (m.insert key value).entries = m.entries ++ [(key, value)] :=
  putEntry_of_not_mem value (not_mem_keys_of_get? h)

theorem values_insert : (m.insert key value).values = m.values ++ [value] := by
  rw [values, entries_insert h, List.map_append]
  rfl

end New

end OrderedMap

end GrammarTrees
