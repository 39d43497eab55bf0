import Backend.Hash.Model
import Backend.LockFree.Model
import Backend.Queue.SessionPool

/-!
# The capacities that `Init` computes

`CommonQueue::Init`, `SessionPool::Init` and `HashMap::Init` double a `uint32_t` or an `int32_t` until it is not below
the size they are given; only `HashMap::Init` bounds that size before. `LockFreeQueue::Init` adds `1` to a `uint32_t`.

* `LeastPow`, `RoundsUp`: the least power of two that is not below the size, and the loop that ends there;
* **`roundsUp_u32_iff`**, **`roundsUp_i32_iff`**: the sizes for which it does;
* **`queue_init_iff`**, **`pool_init_iff`**: the sizes for which `Init` succeeds, with `m_size` and the number of sessions;
* **`capacity_sound_iff`**: the four capacities; `capacity_unsound`: sizes for which they are not sound.
-/

set_option autoImplicit false

namespace Backend

open Hash (HashMap)
open LockFree (LockFreeQueue)
open Queue (CommonQueue)
open Pool (SessionPool)

/-- `m` is the least power of two that is not below `size`. -/
def LeastPow (m : ℕ) (size : ℤ) : Prop := ∃ k : ℕ, m = 2 ^ k ∧ size ≤ 2 ^ k ∧ ∀ j : ℕ, size ≤ 2 ^ j → k ≤ j

/-- `while (m < size) m <<= 1` from `m = 1` on ends, at the least power of two that is not below `size`. -/
def RoundsUp (wrap : ℤ → ℤ) (size : ℤ) : Prop :=
  ∃ fuel k : ℕ, doubleLoop wrap fuel 1 size = some (2 ^ k) ∧ size ≤ 2 ^ k ∧ ∀ j : ℕ, size ≤ 2 ^ j → k ≤ j

theorem roundsUp_of_le {wrap : ℤ → ℤ} {B : ℕ} (hw : ∀ j : ℕ, j ≤ B → wrap (2 ^ j) = 2 ^ j) {size : ℤ}
    (hs : size ≤ 2 ^ B) : RoundsUp wrap size := by
  obtain ⟨k, -, he, hle, hlt⟩ := doubleLoop_from hw hs (B + 1) 0 (Nat.zero_le _) le_rfl (Or.inl rfl)
  exact ⟨B + 1, k, he, hle, fun j hj => le_of_pow_le hj hlt⟩

/-- **On `uint32_t`** the loop ends for sizes up to `2 ^ 31`. -/
theorem roundsUp_u32_iff {size : ℤ} : RoundsUp u32 size ↔ size ≤ 2 ^ 31 := by
  constructor
  · rintro ⟨fuel, k, he, -⟩
    obtain ⟨h0 | ⟨j, hj, hr⟩, hle⟩ := pow_of_doubleLoop_u32 he
    · omega
    · have hp : (2 : ℤ) ^ j ≤ 2 ^ 31 := pow_le_pow_right₀ (by norm_num) hj
      omega
  · refine roundsUp_of_le fun j hj => ?_
    have hp : (2 : ℤ) ^ j ≤ 2 ^ 31 := pow_le_pow_right₀ (by norm_num) hj
    exact u32_of_lt (by positivity) (by omega)

/-- **On `int32_t`** the loop ends for sizes up to `2 ^ 30`. -/
theorem roundsUp_i32_iff {size : ℤ} : RoundsUp i32 size ↔ size ≤ 2 ^ 30 := by
  constructor
  · rintro ⟨fuel, k, he, -⟩
    exact size_le_of_doubleLoop_i32 he
  · refine roundsUp_of_le fun j hj => ?_
    have h0 : (0 : ℤ) ≤ 2 ^ j := by positivity
    have hp : (2 : ℤ) ^ j ≤ 2 ^ 30 := pow_le_pow_right₀ (by norm_num) hj
    exact i32_of_lt (by omega) (by omega)

/-- **`CommonQueue::Init`** succeeds for sizes up to `2 ^ 30`, for the loop ends there and above it at `2 ^ 31`, which
`sem_init` refuses. -/
theorem queue_init_iff {T : Type} (zero : T) (q : CommonQueue T) (size : ℕ) :
    (∃ q', CommonQueue.init zero q size = some q' ∧ LeastPow q'.size size) ↔ size ≤ 2 ^ 30 := by
  constructor
  · rintro ⟨q', h, -⟩
    exact Queue.size_le_of_init h
  · intro hs
    obtain ⟨k, -, hle, hlt, he⟩ := Queue.init_spec zero (fun _ => zero) hs
    refine ⟨_, by rw [Queue.init_eq_map zero q fun _ => zero, he, Option.map_some], k, rfl, by exact_mod_cast hle, ?_⟩
    exact fun j hj => le_of_pow_le hj hlt

/-- **`SessionPool::Init`** succeeds for sizes from `1` to `2 ^ 30`, with as many sessions as the queue has places. -/
theorem pool_init_iff {ι : Type} [Fintype ι] [DecidableEq ι] (t : ι) (mem : ℕ → Option ℕ) (poolSize : ℤ) :
    (∃ p, SessionPool.init t mem poolSize = some p ∧ LeastPow p.queue.size poolSize ∧ p.sessionNum = p.queue.size) ↔
      1 ≤ poolSize ∧ poolSize ≤ 2 ^ 30 := by
  constructor
  · rintro ⟨p, h, -⟩
    rw [SessionPool.init] at h
    split_ifs at h with h1
    obtain ⟨m, hm, -⟩ := Option.bind_eq_some_iff.mp h
    exact ⟨not_lt.mp h1, size_le_of_doubleLoop_i32 hm⟩
  · rintro ⟨h1, h2⟩
    obtain ⟨p, k, he, hk, hle, hlt, hi⟩ := Pool.init_inv t mem h1 h2
    exact ⟨p, he, ⟨k, hk, hle, fun j hj => le_of_pow_le hj hlt⟩, hi.sessions⟩

theorem bucketNum_of_init {K V : Type} (s : HashMap K V) {bucketNum : ℤ} (h : 0 < bucketNum) :
    ∃ s' k, s.init bucketNum = some (true, s') ∧ s'.bucketNum = 2 ^ k ∧ min bucketNum Hash.kMaxBucketNum ≤ 2 ^ k ∧
      ∀ j : ℕ, min bucketNum Hash.kMaxBucketNum ≤ 2 ^ j → k ≤ j := by
  have hmin : (if bucketNum > Hash.kMaxBucketNum then Hash.kMaxBucketNum else bucketNum) =
      min bucketNum Hash.kMaxBucketNum := by
    split_ifs with hgt
    · exact (min_eq_right hgt.le).symm
    · exact (min_eq_left (not_lt.mp hgt)).symm
  obtain ⟨k, -, he, hle, hlt⟩ := doubleLoop_spec (fun x h0 h => i32_of_lt (by omega) h)
    (min_le_right bucketNum Hash.kMaxBucketNum)
  have he : doubleLoop i32 33 1 (min bucketNum Hash.kMaxBucketNum) = some (2 ^ k) := he
  refine ⟨{ s with bucketNum := 2 ^ k, array := some fun _ => none }, k, ?_, rfl, hle, fun j hj => le_of_pow_le hj hlt⟩
  simp only [HashMap.init, if_neg (not_le.mpr h), hmin, he, Option.map_some]

theorem size_of_init {T : Type} (data : ℕ → T) (size : ℕ) {q : LockFreeQueue T}
    (h : LockFreeQueue.init data size = some q) : q.size = size + 1 ∧ q.size ≠ 0 ↔ size < 2 ^ 32 - 1 := by
  rw [LockFreeQueue.init] at h
  split_ifs at h with h0
  obtain rfl := Option.some.inj h
  constructor
  · rintro ⟨he, -⟩
    have := Nat.mod_lt (size + 1) (show 0 < 2 ^ 32 by decide)
    simp only at he
    omega
  · intro hlt
    have he : (size + 1) % 2 ^ 32 = size + 1 := Nat.mod_eq_of_lt (by omega)
    exact ⟨he, by simp only [he]; omega⟩

/-- **The capacities are sound**: the loop of `CommonQueue::Init` for sizes up to `2 ^ 31`, and its `m_size` for those that
`sem_init` accepts; the loop of `SessionPool::Init` for sizes up to `2 ^ 30`, and its number of sessions; all sizes of
`HashMap::Init`, and all sizes that `LockFreeQueue::Init` accepts but the largest `uint32_t`. -/
theorem capacity_sound_iff {ι K V T : Type} [Fintype ι] [DecidableEq ι] (zero : T) (q : CommonQueue T) (size : ℕ) (t : ι)
    (mem : ℕ → Option ℕ) (poolSize bucketNum : ℤ) (s : HashMap K V) (data : ℕ → T) (queueSize : ℕ) :
    (RoundsUp u32 size ↔ size ≤ 2 ^ 31) ∧ (RoundsUp i32 poolSize ↔ poolSize ≤ 2 ^ 30) ∧
    ((∃ q', CommonQueue.init zero q size = some q' ∧ LeastPow q'.size size) ↔ size ≤ 2 ^ 30) ∧
    ((∃ p, SessionPool.init t mem poolSize = some p ∧ LeastPow p.queue.size poolSize ∧ p.sessionNum = p.queue.size) ↔
      1 ≤ poolSize ∧ poolSize ≤ 2 ^ 30) ∧
    (0 < bucketNum → ∃ s' k, s.init bucketNum = some (true, s') ∧ s'.bucketNum = 2 ^ k ∧
      min bucketNum Hash.kMaxBucketNum ≤ 2 ^ k ∧ ∀ j : ℕ, min bucketNum Hash.kMaxBucketNum ≤ 2 ^ j → k ≤ j) ∧
    ∀ q, LockFreeQueue.init data queueSize = some q →
      (q.size = queueSize + 1 ∧ q.size ≠ 0 ↔ queueSize < 2 ^ 32 - 1) := by
  refine ⟨?_, roundsUp_i32_iff, queue_init_iff zero q size, pool_init_iff t mem poolSize, bucketNum_of_init s,
    fun q hq => size_of_init data queueSize hq⟩
  rw [roundsUp_u32_iff]
  exact_mod_cast Iff.rfl

/-- The loops do not end for `2 ^ 31 + 1` and `2 ^ 30 + 1`, and `m_size` of the lock-free queue is `0`. -/
theorem capacity_unsound : ¬ RoundsUp u32 (2 ^ 31 + 1) ∧ ¬ RoundsUp i32 (2 ^ 30 + 1) ∧
    (LockFreeQueue.init (fun _ => 0) (2 ^ 32 - 1)).map LockFreeQueue.size = some 0 := by
  refine ⟨?_, ?_, rfl⟩
  · rw [roundsUp_u32_iff]
    decide
  · rw [roundsUp_i32_iff]
    decide

end Backend
