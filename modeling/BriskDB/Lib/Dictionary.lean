import Mathlib

/-! # Dictionaries

A dictionary is a finite map with one type of values. Two dictionaries are equal when every
lookup agrees, whatever the order in which their entries were made; a traversal goes by the
order of the keys.
-/

universe u v

abbrev Dictionary (κ : Type u) (ν : Type v) := Finmap fun _ : κ => ν

namespace Dictionary

open List

variable {κ : Type u} {ν : Type v} (dictionary : Dictionary κ ν)

def size : Nat := dictionary.keys.card

def mapValues (change : ν → ν) (dictionary : Dictionary κ ν) : Dictionary κ ν where
  entries := dictionary.entries.map fun entry => ⟨entry.1, change entry.2⟩
  nodupKeys := by
    rw [← Multiset.nodup_keys]
    unfold Multiset.keys
    rw [Multiset.map_map]
    exact Multiset.nodup_keys.mpr dictionary.nodupKeys

theorem keys_mapValues (change : ν → ν) (dictionary : Dictionary κ ν) :
    (mapValues change dictionary).keys = dictionary.keys := by
  ext key
  rw [Finmap.mem_keys, Finmap.mem_keys, Finmap.mem_def, Finmap.mem_def]
  unfold mapValues Multiset.keys
  rw [Multiset.map_map]
  rfl

section Lookup

variable [DecidableEq κ]

theorem lookup_mapValues (change : ν → ν) (dictionary : Dictionary κ ν) (key : κ) :
    (mapValues change dictionary).lookup key = (dictionary.lookup key).map change := by
  induction dictionary using Finmap.induction_on with
  | H entries =>
    exact @List.dlookup_map₂ κ _ (fun _ => ν) (fun _ => ν) entries.entries (fun _ => change) key

theorem lookup_insert_eq (key other : κ) (value : ν) : (dictionary.insert key value).lookup other =
      if other = key then some value else dictionary.lookup other := by
  split
  next heq =>
    subst heq
    exact Finmap.lookup_insert dictionary
  · simp [*]

theorem lookup_erase_eq (key other : κ) : (dictionary.erase key).lookup other =
      if other = key then none else dictionary.lookup other := by
  split
  next heq =>
    grind [Finmap.lookup_erase]
  · simp [*]

theorem keys_insert (key : κ) (value : ν) :
    (dictionary.insert key value).keys = insert key dictionary.keys := by
  grind [Finmap.mem_keys, Finmap.mem_insert]

theorem size_insert_le (key : κ) (value : ν) :
    size (dictionary.insert key value) ≤ size dictionary + 1 := by
  simp [*, size, keys_insert, Finset.card_insert_le]

theorem size_insert_of_mem {dictionary : Dictionary κ ν} {key : κ} (h : key ∈ dictionary)
    (value : ν) : size (dictionary.insert key value) = size dictionary := by
  unfold size
  rw [keys_insert, Finset.insert_eq_of_mem (Finmap.mem_keys.mpr h)]

theorem size_erase_le (key : κ) : size (dictionary.erase key) ≤ size dictionary := by
  unfold size
  rw [Finmap.keys_erase]
  exact Finset.card_erase_le

theorem lookup_foldl_insert {entries : List (κ × ν)} (hkeys : (entries.map Prod.fst).Nodup)
    (dictionary : Dictionary κ ν) (key : κ) (value : ν) :
    (entries.foldl (fun made entry => made.insert entry.1 entry.2) dictionary).lookup key =
        some value ↔
      (key, value) ∈ entries ∨
        key ∉ entries.map Prod.fst ∧ dictionary.lookup key = some value := by
  induction entries generalizing dictionary with
  | nil => simp
  | cons entry entries ih =>
    rw [map_cons, nodup_cons] at hkeys
    rw [foldl_cons, ih hkeys.2, lookup_insert_eq, mem_cons, map_cons,
      mem_cons]
    have hentry : (key, value) ∈ entries → key ∈ entries.map Prod.fst := fun hmem =>
      mem_map_of_mem hmem
    grind [Option.some.injEq]

end Lookup

section Traversal

variable [LinearOrder κ]

def toList : List (κ × ν) :=
  (dictionary.keys.sort (· ≤ ·)).filterMap fun key =>
    (dictionary.lookup key).map fun value => (key, value)

theorem mem_toList {dictionary : Dictionary κ ν} {entry : κ × ν} :
    entry ∈ toList dictionary ↔ dictionary.lookup entry.1 = some entry.2 := by
  unfold toList
  rw [mem_filterMap]
  constructor
  · rintro ⟨key, -, hentry⟩
    obtain ⟨value, hlookup, rfl⟩ := Option.map_eq_some_iff.mp hentry
    exact hlookup
  · grind [Finset.mem_sort, Finmap.mem_keys, Finmap.mem_of_lookup_eq_some]

theorem keys_toList : (toList dictionary).map Prod.fst = dictionary.keys.sort (· ≤ ·) := by
  unfold toList
  rw [map_filterMap]
  have hall : ∀ keys : List κ, (∀ key ∈ keys, key ∈ dictionary) →
      keys.filterMap (fun key => ((dictionary.lookup key).map fun value => (key, value)).map
        Prod.fst) = keys := by
    intro keys hkeys
    induction keys with
    | nil => rfl
    | cons key keys ih =>
      obtain ⟨value, hvalue⟩ := Finmap.mem_iff.mp (hkeys key mem_cons_self)
      grind
  exact hall _ fun key hkey => Finmap.mem_keys.mp ((Finset.mem_sort _).mp hkey)

theorem nodup_toList : ((toList dictionary).map Prod.fst).Nodup := by
  rw [keys_toList]
  exact Finset.sort_nodup _ _

theorem length_toList : (toList dictionary).length = size dictionary := by
  have hlength := congrArg List.length (keys_toList dictionary)
  rwa [length_map, Finset.length_sort] at hlength

theorem foldl_insert_toList :
    (toList dictionary).foldl (fun made entry => made.insert entry.1 entry.2) ∅ =
      dictionary := by
  apply Finmap.ext_lookup
  intro key
  apply Option.ext
  simp [lookup_foldl_insert, nodup_toList, mem_toList]

def values : List ν := (toList dictionary).map Prod.snd

theorem mem_values {dictionary : Dictionary κ ν} {value : ν} :
    value ∈ values dictionary ↔ ∃ key, dictionary.lookup key = some value := by
  unfold values
  rw [mem_map]
  constructor
  · rintro ⟨entry, hentry, rfl⟩
    exact ⟨entry.1, mem_toList.mp hentry⟩
  · rintro ⟨key, hlookup⟩
    exact ⟨(key, value), mem_toList.mpr hlookup, rfl⟩

end Traversal

end Dictionary
