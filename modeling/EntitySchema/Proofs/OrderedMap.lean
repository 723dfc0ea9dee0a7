import EntitySchema.Metadata
import Mathlib.Data.Finset.Card
import Mathlib.Data.List.Nodup
/-!
  Meta data as an ordered map.

  Entries that are inserted one after the other are a history `given`: a list in which a key can stand any
  number of times, at any distance.  What the meta data `m` makes of it can be said of the history alone,
  `m.IsMapOf given`:
  * the keys of `m` are those of the history, each once (`keys_nodup`, `mem_keys_iff`) and in the order of
    their first entries (`keys_order`, by `idxOf`),
  * a key finds the value of its last entry, `m.find? key = given.reverse.lookup key` (`find?_eq`),
  * what is counted and what is known are the different keys (`size_eq`, `contains_iff`).

  The first entry of a key and the last one are found from the two ends of the history, so one more entry at
  its end moves no key and may change a value.  One insertion keeps all this for the history with one entry
  more (`IsMapOf.insert`), and so it holds of whatever was inserted into nothing (`isMapOf_ofList`), by
  induction from the end of the history.  An insertion also touches its own key alone and hands out what it
  replaced (`exchanges_exchange`).
-/

namespace EntitySchema

namespace Metadata

/-- The meta data is the ordered map of the entries that were given, the first one first. -/
structure IsMapOf (m : Metadata) (given : List (String × String)) : Prop where
  /-- No key stands twice. -/
  keys_nodup : m.keys.Nodup
  /-- The keys stand in the order in which they were first given. -/
  keys_order : m.keys.Pairwise fun a b => (given.map (·.1)).idxOf a < (given.map (·.1)).idxOf b
  /-- The keys are those that were given. -/
  mem_keys_iff : ∀ key, key ∈ m.keys ↔ key ∈ given.map (·.1)
  /-- A key finds the value that was given for it last. -/
  find?_eq : ∀ key, m.find? key = given.reverse.lookup key
  /-- A key is known exactly if it was given. -/
  contains_iff : ∀ key, m.contains key ↔ key ∈ given.map (·.1)
  /-- Every key is counted once. -/
  size_eq : m.size = (given.map (·.1)).toFinset.card

variable {m : Metadata} {given : List (String × String)}

/-- The keys in their order and what they find decide everything else: keys that are strictly in order are
different, so their number is that of the set of keys. -/
theorem isMapOf_of_keys
    (horder : m.keys.Pairwise fun a b => (given.map (·.1)).idxOf a < (given.map (·.1)).idxOf b)
    (hmem : ∀ key, key ∈ m.keys ↔ key ∈ given.map (·.1))
    (hfind : ∀ key, m.find? key = given.reverse.lookup key) : m.IsMapOf given := by
  have hnodup : m.keys.Nodup := horder.imp fun hlt heq => absurd (heq ▸ hlt) (Nat.lt_irrefl _)
  refine ⟨hnodup, horder, hmem, hfind, fun key => ?_, ?_⟩
  · rw [contains, hfind, List.lookup_isSome_iff]
    simp only [List.mem_reverse, beq_iff_eq, List.mem_map, @eq_comm _ key]
  · have hsame : m.keys.toFinset = (given.map (·.1)).toFinset := by
      ext key
      rw [List.mem_toFinset, List.mem_toFinset]
      exact hmem key
    rw [← hsame, List.toFinset_card_of_nodup hnodup, keys, List.length_map, size]

/-- Nothing was given, and nothing is there. -/
theorem isMapOf_empty : empty.IsMapOf [] :=
  isMapOf_of_keys List.Pairwise.nil (fun _ => Iff.rfl) fun _ => rfl

/-- An insertion makes the map of the history with one entry more.  There are two cases, whether the key was
given before: then the keys are the same and their first entries too, and otherwise it comes last in both. -/
theorem IsMapOf.insert (h : m.IsMapOf given) (key value : String) :
    (m.insert key value).IsMapOf (given ++ [(key, value)]) := by
  have hkeys : (given ++ [(key, value)]).map (·.1) = given.map (·.1) ++ [key] := by
    rw [List.map_append, List.map_singleton]
  -- A key that was given before keeps its first entry in the longer history.
  have hplace : ∀ a ∈ m.keys, (given.map (·.1) ++ [key]).idxOf a = (given.map (·.1)).idxOf a :=
    fun a ha => List.idxOf_append_of_mem ((h.mem_keys_iff a).1 ha)
  have hkept : m.keys.Pairwise fun a b =>
      (given.map (·.1) ++ [key]).idxOf a < (given.map (·.1) ++ [key]).idxOf b := by
    refine h.keys_order.imp_of_mem fun {a b} ha hb hlt => ?_
    rwa [hplace a ha, hplace b hb]
  refine isMapOf_of_keys ?_ (fun a => ?_) fun a => ?_
  · rw [keys_insert, hkeys]
    split
    · exact hkept
    · next hnew =>
      refine List.pairwise_append.2 ⟨hkept, List.pairwise_singleton _ _, fun a ha b hb => ?_⟩
      obtain rfl := List.mem_singleton.1 hb
      have hlast : b ∉ given.map (·.1) := fun hb => hnew ((h.mem_keys_iff b).2 hb)
      rw [hplace a ha, List.idxOf_append_of_notMem hlast]
      exact Nat.lt_add_right _ (List.idxOf_lt_length_iff.2 ((h.mem_keys_iff a).1 ha))
  · rw [keys_insert, hkeys, List.mem_append, ← h.mem_keys_iff a]
    split
    · next hold =>
      refine ⟨Or.inl, fun ha => ha.elim id fun ha => ?_⟩
      rwa [List.mem_singleton.1 ha]
    · exact List.mem_append
  · rw [find?_insert, h.find?_eq a, List.reverse_append, List.reverse_singleton, List.singleton_append,
      List.lookup_cons]
    by_cases ha : a = key
    · simp [ha]
    · rw [if_neg ha, beq_eq_false_iff_ne.2 ha]

/-- Whatever was inserted into nothing is the ordered map of what was inserted. -/
theorem isMapOf_ofList (given : List (String × String)) : (ofList given).IsMapOf given := by
  induction given using List.reverseRecOn with
  | nil => exact isMapOf_empty
  | append_singleton given entry ih =>
    rw [ofList_concat]
    exact ih.insert entry.1 entry.2

/-- An insertion hands out the old value of its key, and leaves the other keys alone. -/
structure Exchanges (m : Metadata) (key : String) (old : Option String) (m' : Metadata) : Prop where
  /-- The old value is the one that the key found just before. -/
  old_eq : old = m.find? key
  /-- Every other key finds what it found. -/
  find?_other : ∀ other, other ≠ key → m'.find? other = m.find? other
  /-- Every other key stands where it stood, with the value it had. -/
  entries_other : ∀ other, other ≠ key → ∀ (i : Nat) (value : String),
    m'.entries[i]? = some (other, value) ↔ m.entries[i]? = some (other, value)

/-- An insertion that hands out what it replaces exchanges the value of its key and nothing else. -/
theorem exchanges_exchange (m : Metadata) (key value : String) :
    m.Exchanges key (m.exchange key value).1 (m.exchange key value).2 := by
  rw [exchange_eq]
  refine ⟨rfl, fun other hother => ?_, fun other hother i w => ?_⟩
  · rw [find?_insert, if_neg hother]
  · exact getElem?_put_of_ne hother value w m.entries i

end Metadata

end EntitySchema
