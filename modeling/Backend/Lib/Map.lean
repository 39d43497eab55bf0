import Mathlib.Data.Finmap

/-!
# The keys of a finite map

* `keys_insert`, `card_insert_of_mem`, `card_insert_of_notMem`: the keys after an insertion;
* `card_erase_of_mem`, `erase_of_notMem`: and after an erasure.
-/

set_option autoImplicit false

namespace Backend

variable {K V : Type*} [DecidableEq K] {f : Finmap fun _ : K => V} {k : K}

theorem keys_insert (f : Finmap fun _ : K => V) (k : K) (v : V) :
    (f.insert k v).keys = insert k f.keys := by
  ext x
  rw [Finmap.mem_keys, Finmap.mem_insert, Finset.mem_insert, Finmap.mem_keys]

theorem card_insert_of_mem (hk : k ∈ f) (v : V) : (f.insert k v).keys.card = f.keys.card := by
  rw [keys_insert, Finset.insert_eq_of_mem (Finmap.mem_keys.mpr hk)]

theorem card_insert_of_notMem (hk : k ∉ f) (v : V) :
    (f.insert k v).keys.card = f.keys.card + 1 := by
  rw [keys_insert, Finset.card_insert_of_notMem (mt Finmap.mem_keys.mp hk)]

theorem card_erase_of_mem (hk : k ∈ f) : (f.erase k).keys.card + 1 = f.keys.card := by
  rw [Finmap.keys_erase]
  exact Finset.card_erase_add_one (Finmap.mem_keys.mpr hk)

theorem erase_of_notMem (hk : k ∉ f) : f.erase k = f := by
  refine Finmap.ext_lookup fun x => ?_
  by_cases hx : x = k
  · rw [hx, Finmap.lookup_erase, Finmap.lookup_eq_none.mpr hk]
  · rw [Finmap.lookup_erase_ne hx]

end Backend
