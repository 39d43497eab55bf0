import Backend.Queue.Steps
import Backend.Lib.Fifo
import Mathlib.Data.List.Nodup

/-!
# `SessionPool` (`base/dsalgo/session_pool.cc`)

A pool keeps the free sessions in a queue as long as the number of sessions. Sessions are named by
their index in `m_session_list`; the queues are the abstract queues that `CommonQueue` refines.

* `RequestQueue.init`, `SessionPool.init`: `Init` of a queue and of a pool;
* **`init_same`**: built from one size, queue and pool have one capacity, and the pool holds every
  session once.
-/

set_option autoImplicit false

namespace Backend.Foxea

/-- `CommonQueue::Init(size)`: an empty queue of the rounded size. -/
def RequestQueue.init (size : ℕ) : Option (Fifo ℕ) :=
  (Queue.CommonQueue.init 0 (.new fun _ => 0) size).map fun q => ⟨q.size, []⟩

/-- `SessionPool::Init(pool_size)`: every session is pushed into the queue of free sessions. -/
def SessionPool.init (poolSize : ℤ) : Option (Fifo ℕ) :=
  if 1 > poolSize then none else do
    let m ← doubleLoop i32 33 1 poolSize
    let q ← RequestQueue.init m.toNat
    (List.range m.toNat).foldlM Fifo.push q

theorem foldlM_push {T : Type*} (q : Fifo T) (l : List T) (h : q.items.length + l.length ≤ q.cap) :
    l.foldlM Fifo.push q = some ⟨q.cap, q.items ++ l⟩ := by
  induction l generalizing q with
  | nil => simp
  | cons x l ih =>
    rw [List.length_cons] at h
    have hp : q.push x = some ⟨q.cap, q.items ++ [x]⟩ := Fifo.push_eq_some.mpr ⟨by omega, rfl⟩
    rw [List.foldlM_cons, hp, Option.bind_eq_bind, Option.bind_some, ih]
    · simp
    · simp only [List.length_append, List.length_singleton]
      omega

/-- **Queue and pool of one size** have one capacity; the pool holds every session once. -/
theorem init_same {size : ℕ} {q p : Fifo ℕ} (hq : RequestQueue.init size = some q)
    (hp : SessionPool.init size = some p) : q.items = [] ∧ p.cap = q.cap ∧
      p.items = List.range q.cap := by
  unfold SessionPool.init at hp
  split at hp
  · cases hp
  obtain ⟨m, hm, hp⟩ := Option.bind_eq_some_iff.mp hp
  obtain ⟨q', hq', hp⟩ := Option.bind_eq_some_iff.mp hp
  have hle := size_le_of_doubleLoop_i32 hm
  obtain ⟨k, hk, hek, hk1, hk2⟩ := doubleLoop_spec (fun x h0 h => i32_of_lt (by omega) h) hle
  obtain rfl := Option.some.inj (hek.symm.trans hm)
  have ht : ((2 : ℤ) ^ k).toNat = 2 ^ k := by norm_cast
  rw [ht] at hq' hp
  have hpow : (2 : ℕ) ^ k ≤ 2 ^ 30 := Nat.pow_le_pow_right (by norm_num) hk
  -- the queue of the pool keeps the rounded size
  obtain ⟨k', -, h1, h2, he'⟩ := Queue.init_spec 0 (fun _ => 0) hpow
  have hkk : k = k' := by
    refine pow_unique (le_refl ((2 : ℤ) ^ k)) ?_ (by exact_mod_cast h1) (by exact_mod_cast h2)
    rcases Nat.eq_zero_or_pos k with h | h
    · exact Or.inl h
    · exact Or.inr (pow_lt_pow_right₀ (by norm_num) (by omega))
  subst hkk
  rw [RequestQueue.init, he'] at hq'
  cases hq'
  -- the request queue rounds its size to the same power
  obtain ⟨j, -, h3, h4, he⟩ := Queue.init_spec 0 (fun _ => 0)
    (show size ≤ 2 ^ 30 by exact_mod_cast hle)
  have hjk : j = k := pow_unique (by exact_mod_cast h3) h4 hk1 hk2
  subst hjk
  rw [RequestQueue.init, he] at hq
  cases hq
  rw [foldlM_push _ _ (by simp)] at hp
  cases hp
  exact ⟨rfl, rfl, rfl⟩

end Backend.Foxea
