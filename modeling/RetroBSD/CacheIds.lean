import RetroBSD.Runs

/-!
# Identifiers of cached inodes

An entry of the name cache is valid as long as its `nc_id` is the `i_id` of the
inode it names: `cacheinval` of `sys/include/inode.h` makes every entry of an
inode stale by giving the inode the next identifier, and `cinvalall` of
`sys/kernel/ufs_namei.c` resets the entries when the counter of identifiers
wraps. `nextinodeid` and `i_id` are 32-bit numbers, `nc_id` is a `u_short`.
Inodes and slots are positions in their tables.
-/

namespace CacheIds

open Runs List
open Function (update update_self)

/-- The fields of a name cache slot that tell whether its entry is stale. -/
structure Namecache where
  nc_ip : Option Nat
  nc_id : Nat

structure State where
  nextinodeid : Nat
  i_id : Nat → Nat
  namecache : Nat → Namecache

def cinvalall (s : State) : State :=
  { s with namecache := fun k => { s.namecache k with nc_id := 0 } }

def cacheinval (ip : Nat) (s : State) : State :=
  let id := (s.nextinodeid + 1) % 2 ^ 32
  let s := { s with nextinodeid := id, i_id := update s.i_id ip id }
  if id = 0 then cinvalall s else s

/-- What `namei` stores about the inode it found, in the slot it recycles. -/
def record (k ip : Nat) (s : State) : State :=
  { s with namecache := update s.namecache k ⟨some ip, s.i_id ip % 2 ^ 16⟩ }

inductive Act where
  | cacheinval (ip : Nat)
  | record (k ip : Nat)

def exec (s : State) : Act → State
  | .cacheinval ip => cacheinval ip s
  | .record k ip => record k ip s

def boot : State := ⟨0, fun _ => 0, fun _ => ⟨none, 0⟩⟩

/-- The counter does not wrap at an inode that has an entry, and no identifier
is recorded that the counter has still to reach. -/
def Fresh (s : State) : Act → Prop
  | .cacheinval ip => s.nextinodeid = 2 ^ 32 - 1 → ∀ k, (s.namecache k).nc_ip ≠ some ip
  | .record _ ip => s.i_id ip % 2 ^ 16 ≤ s.nextinodeid

structure Bounded (s : State) : Prop where
  counter : s.nextinodeid < 2 ^ 32
  ids : ∀ k, (s.namecache k).nc_id ≤ s.nextinodeid

structure Stale (k ip : Nat) (s : State) : Prop where
  entry : (s.namecache k).nc_ip = some ip
  nonzero : s.i_id ip ≠ 0
  differs : (s.namecache k).nc_id ≠ s.i_id ip

variable {s t : State} {a : Act} {as : List Act} {k ip : Nat}

/-- Either the counter goes up by one, or it wraps and all entries are reset. -/
lemma cacheinval_cases (bounded : s.nextinodeid < 2 ^ 32) (ip : Nat) :
    (s.nextinodeid + 1 < 2 ^ 32 ∧ cacheinval ip s = { s with
      nextinodeid := s.nextinodeid + 1, i_id := update s.i_id ip (s.nextinodeid + 1) }) ∨
    (s.nextinodeid = 2 ^ 32 - 1 ∧ cacheinval ip s =
      cinvalall { s with nextinodeid := 0, i_id := update s.i_id ip 0 }) := by
  by_cases last : s.nextinodeid = 2 ^ 32 - 1
  · exact .inr ⟨last, by simp [cacheinval, last]⟩
  · have small : s.nextinodeid + 1 < 2 ^ 32 := by omega
    refine .inl ⟨small, ?_⟩
    simp only [cacheinval, Nat.mod_eq_of_lt small, Nat.succ_ne_zero, if_false]

lemma exec_bounded (bounded : Bounded s) (fresh : Fresh s a) : Bounded (exec s a) := by
  cases a with
  | cacheinval ip =>
    rcases cacheinval_cases bounded.counter ip with ⟨small, result⟩ | ⟨_, result⟩ <;>
      simp [exec, result]
    · exact ⟨small, fun k => Nat.le_succ_of_le (bounded.ids k)⟩
    · exact ⟨Nat.two_pow_pos 32, fun k => Nat.le_refl 0⟩
  | record k ip =>
    refine ⟨bounded.counter, fun j => ?_⟩
    by_cases same : j = k
    · subst j
      simpa [exec, record, Fresh] using fresh
    · simpa [exec, record, same] using bounded.ids j

lemma exec_entry (bounded : Bounded s) (kept : ∀ jp, a ≠ .record k jp) :
    ((exec s a).namecache k).nc_ip = (s.namecache k).nc_ip := by
  cases a with
  | cacheinval ip =>
    rcases cacheinval_cases bounded.counter ip with ⟨_, result⟩ | ⟨_, result⟩ <;>
      simp [exec, result, cinvalall]
  | record j ip =>
    have other : k ≠ j := fun same => kept ip (same ▸ rfl)
    simp [exec, record, other]

lemma cacheinval_stale (bounded : Bounded s) (fresh : Fresh s (.cacheinval ip))
    (entry : (s.namecache k).nc_ip = some ip) : Stale k ip (cacheinval ip s) := by
  rcases cacheinval_cases bounded.counter ip with ⟨_, result⟩ | ⟨last, _⟩
  · have := bounded.ids k
    rw [result]
    constructor
    · exact entry
    · simp
    · simp only [update_self]
      omega
  · exact absurd entry (fresh last k)

lemma exec_stale (bounded : Bounded s) (fresh : Fresh s a) (kept : ∀ jp, a ≠ .record k jp)
    (stale : Stale k ip s) : Stale k ip (exec s a) := by
  have entry := (exec_entry bounded kept).trans stale.entry
  cases a with
  | cacheinval jp =>
    by_cases same : ip = jp
    · subst jp
      exact cacheinval_stale bounded fresh stale.entry
    -- the identifier of `ip` stays, and it is not the 0 that `cinvalall` stores
    · rcases cacheinval_cases bounded.counter jp with ⟨_, result⟩ | ⟨_, result⟩
      · exact ⟨entry, by simpa [exec, result, same] using stale.nonzero,
          by simpa [exec, result, same] using stale.differs⟩
      · exact ⟨entry, by simpa [exec, result, same, cinvalall] using stale.nonzero,
          by simpa [exec, result, same, cinvalall] using stale.nonzero.symm⟩
  | record j jp =>
    have other : k ≠ j := fun same => kept jp (same ▸ rfl)
    exact ⟨entry, stale.nonzero, by simpa [exec, record, other] using stale.differs⟩

def Step (s : State) (a : Act) (t : State) : Prop := exec s a = t

lemma run_stale (run : Run Step Fresh s as t) (bounded : Bounded s)
    (entry : (s.namecache k).nc_ip = some ip) (kept : ∀ jp, .record k jp ∉ as)
    (stale : .cacheinval ip ∈ as ∨ Stale k ip s) : Stale k ip t := by
  induction run with
  | nil s => exact stale.resolve_left not_mem_nil
  | @cons s _ _ a as fresh first _ ih =>
    cases first
    have other : ∀ jp, a ≠ .record k jp := fun jp same => kept jp (by simp [same])
    apply ih (exec_bounded bounded fresh) ((exec_entry bounded other).trans entry)
      (fun jp later => kept jp (mem_cons_of_mem a later))
    rcases stale with called | stale
    · rcases mem_cons.mp called with rfl | later
      · exact .inr (cacheinval_stale bounded fresh entry)
      · exact .inl later
    · exact .inr (exec_stale bounded fresh other stale)

/-- An entry recorded before a `cacheinval` of its inode does not match the inode
any more, in every run whose steps are fresh. -/
theorem stale_id_differs {before after : List Act}
    (run : Run Step Fresh boot (before ++ .record k ip :: after) t)
    (called : .cacheinval ip ∈ after) (kept : ∀ jp, .record k jp ∉ after) :
    (t.namecache k).nc_id ≠ t.i_id ip := by
  have bounded : Bounded boot := ⟨Nat.two_pow_pos 32, fun _ => Nat.le_refl 0⟩
  generalize boot = s at run bounded
  induction before generalizing s with
  | nil =>
    obtain _ | ⟨fresh, rfl, rest⟩ := run
    exact (run_stale rest (exec_bounded bounded fresh) (by simp [exec, record]) kept
      (.inl called)).differs
  | cons a before ih =>
    obtain _ | ⟨fresh, rfl, rest⟩ := run
    exact ih _ rest (exec_bounded bounded fresh)

theorem stale_id_differs_recorded_once :
    let t := cacheinval 0 (record 0 0 boot)
    (t.namecache 0).nc_ip = some 0 ∧ (t.namecache 0).nc_id ≠ t.i_id 0 := by
  refine ⟨rfl, @stale_id_differs _ 0 0 [] [.cacheinval 0] ?_ (mem_singleton_self _) (by simp)⟩
  exact .cons (Nat.le_refl 0) rfl (.cons (fun last => absurd last (by decide)) rfl (.nil _))

lemma nextinodeid_replicate (n : Nat) :
    ((replicate n (.cacheinval 1)).foldl exec boot).nextinodeid % 2 ^ 32 = n % 2 ^ 32 := by
  induction n with
  | zero => rfl
  | succ n ih =>
    simp only [replicate_succ', foldl_append, foldl_cons, foldl_nil, exec, cacheinval]
    split <;> simp only [cinvalall] <;> omega

/-- The counter wraps at the inode of an entry: the inode and the entry both get 0. -/
theorem stale_id_matches_after_wrap : ∃ n,
    let t := foldl exec boot (replicate n (.cacheinval 1) ++ [.record 0 0, .cacheinval 0])
    (t.namecache 0).nc_ip = some 0 ∧ (t.namecache 0).nc_id = t.i_id 0 := by
  obtain ⟨n, last⟩ : ∃ n, n = 2 ^ 32 - 1 := ⟨_, rfl⟩
  have count := nextinodeid_replicate n
  refine ⟨n, ?_⟩
  simp only [foldl_append, foldl_cons, foldl_nil]
  have wraps : (((replicate n (.cacheinval 1)).foldl exec boot).nextinodeid + 1) % 2 ^ 32 = 0 := by
    omega
  simp only [exec, record, cacheinval, cinvalall, wraps, if_true, update_self, and_self]

end CacheIds
