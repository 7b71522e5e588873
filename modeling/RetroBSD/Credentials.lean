import RetroBSD.Runs

/-!
# User ids in the process table

The effective user id is kept in the user area, as `u_uid`, and in the process
table, as the `short` `p_uid`, which other processes can read. `setuid`,
`seteuid`, `setgid`, `exec` and `newproc` are described as far as they read or
write user and group ids, and `cansignal`, which decides by them. Whether one
process is a descendant of another is left to the process tree.
-/

namespace Credentials

open Runs
open Function (update update_of_ne update_self)

/-- The types `uid_t` and `gid_t`. -/
abbrev Uid := BitVec 32

inductive Errno where
  | EPERM
  deriving DecidableEq

inductive Status where
  | free
  | alive
  | zombie
  deriving DecidableEq

structure Proc where
  status : Status
  p_uid : BitVec 16
  traced : Bool
  u_uid : Uid
  u_ruid : Uid
  u_svuid : Uid
  u_gid : Uid
  u_rgid : Uid
  u_svgid : Uid
  deriving DecidableEq

namespace Proc

def suser (p : Proc) : Bool := p.u_uid = 0

/-- A user id is stored in the process table. -/
def setProcUid (p : Proc) (uid : Uid) : Proc := { p with p_uid := uid.setWidth 16 }

def setuid (p : Proc) (uid : Uid) : Except Errno Proc :=
  if uid ≠ p.u_ruid ∧ ¬ p.suser then .error .EPERM
  else .ok { p.setProcUid uid with u_uid := uid, u_ruid := uid, u_svuid := uid }

def seteuid (p : Proc) (euid : Uid) : Except Errno Proc :=
  if euid ≠ p.u_ruid ∧ euid ≠ p.u_svuid ∧ ¬ p.suser then .error .EPERM
  else .ok { p with u_uid := euid }

def setgid (p : Proc) (gid : Uid) : Except Errno Proc :=
  if gid ≠ p.u_rgid ∧ ¬ p.suser then .error .EPERM
  else .ok { p with u_gid := gid, u_rgid := gid, u_svgid := gid }

def setegid (p : Proc) (egid : Uid) : Except Errno Proc :=
  if egid ≠ p.u_rgid ∧ egid ≠ p.u_svgid ∧ ¬ p.suser then .error .EPERM
  else .ok { p with u_gid := egid }

/-- The end of `getxfile`: the image may be for another user, unless the process is traced. -/
def getxfile (p : Proc) (uid gid : Uid) : Proc :=
  let q := if p.traced then p else { p.setProcUid uid with u_uid := uid, u_gid := gid }
  { q with u_svuid := q.u_uid, u_svgid := q.u_gid }

/-- `exec` of an image; `isuid` and `isgid` are the owners that its mode bits ask for. -/
def execve (p : Proc) (isuid isgid : Option Uid) : Proc :=
  p.getxfile (isuid.getD p.u_uid) (isgid.getD p.u_gid)

end Proc

variable {P : Type} [DecidableEq P]

/-- The real user id that `fill_from_u` finds. -/
def fillFromU (q : Proc) : Uid := if q.status = .zombie then -2 else q.u_ruid

/-- Whether the process `c` may send a signal to `q`. A `short` is compared with an `uid_t` by its
sign extension. -/
def cansignal (c q : Proc) (isCont inferior : Bool) : Bool :=
  let ruid := fillFromU q
  c.p_uid = 0 || c.u_ruid = ruid || c.p_uid.signExtend 32 = ruid ||
    c.u_ruid = q.p_uid.signExtend 32 || c.p_uid = q.p_uid || (isCont && inferior)

/-- The decision by the current user ids. -/
def mayBeSignalled (c q : Proc) (isCont inferior : Bool) : Bool :=
  c.u_uid = 0 || c.u_ruid = q.u_ruid || c.u_uid = q.u_ruid ||
    c.u_ruid = q.u_uid || c.u_uid = q.u_uid || (isCont && inferior)

inductive Call where
  | setuid (uid : Uid)
  | seteuid (euid : Uid)
  | setgid (gid : Uid)
  | setegid (egid : Uid)
  | execve (isuid isgid : Option Uid)
  | ptrace
  | exit

inductive Label (P : Type) where
  | call (p : P) (call : Call)
  | newproc (p child : P)
  | reap (p : P)

/-- What a call makes of the process, if it succeeds. -/
def Proc.after (p : Proc) : Call → Except Errno Proc
  | .setuid uid => p.setuid uid
  | .seteuid euid => p.seteuid euid
  | .setgid gid => p.setgid gid
  | .setegid egid => p.setegid egid
  | .execve isuid isgid => .ok (p.execve isuid isgid)
  | .ptrace => .ok { p with traced := true }
  | .exit => .ok { p with status := .zombie }

def exec (s : P → Proc) : Label P → Option (P → Proc)
  | .call p call =>
    if (s p).status = .alive then
      match (s p).after call with
      | .ok q => some (update s p q)
      | .error _ => some s
    else none
  | .newproc p child =>
    if (s p).status = .alive ∧ (s child).status = .free then
      some (update s child { s p with traced := false })
    else none
  | .reap p =>
    if (s p).status = .zombie then some (update s p { s p with status := .free }) else none

def Step (s : P → Proc) (a : Label P) (t : P → Proc) : Prop := exec s a = some t

def boot (first : P) : P → Proc := fun p =>
  ⟨if p = first then .alive else .free, 0, false, 0, 0, 0, 0, 0, 0⟩

/-- A user id that a `short` can hold. -/
def Fits (uid : Uid) : Prop := (uid.setWidth 16).signExtend 32 = uid

instance (uid : Uid) : Decidable (Fits uid) := inferInstanceAs (Decidable (_ = _))

/-- `seteuid` does not change the effective user id, and no call sets one that a `short` cannot
hold. -/
def Calm (s : P → Proc) : Label P → Prop
  | .call _ (.setuid uid) => Fits uid
  | .call p (.seteuid euid) => euid = (s p).u_uid
  | .call _ (.execve (some uid) _) => Fits uid
  | _ => True

def Agrees (p : Proc) : Prop := p.p_uid.signExtend 32 = p.u_uid

variable {p q : Proc}

lemma setuid_agrees {uid : Uid} (fits : Fits uid) (done : p.setuid uid = .ok q) : Agrees q := by
  unfold Proc.setuid at done
  split_ifs at done
  cases done
  exact fits

lemma seteuid_agrees {euid : Uid} (agrees : Agrees p) (same : euid = p.u_uid)
    (done : p.seteuid euid = .ok q) : Agrees q := by
  unfold Proc.seteuid at done
  split_ifs at done
  cases done
  exact agrees.trans same.symm

lemma setgid_agrees {gid : Uid} (agrees : Agrees p) (done : p.setgid gid = .ok q) : Agrees q := by
  unfold Proc.setgid at done
  split_ifs at done
  cases done
  exact agrees

lemma setegid_agrees {egid : Uid} (agrees : Agrees p)
    (done : p.setegid egid = .ok q) : Agrees q := by
  unfold Proc.setegid at done
  split_ifs at done
  cases done
  exact agrees

lemma getxfile_agrees {uid : Uid} (agrees : Agrees p) (fits : Fits uid) (gid : Uid) :
    Agrees (p.getxfile uid gid) := by
  unfold Proc.getxfile
  split_ifs
  · exact agrees
  · exact fits

lemma setWidth_signExtend (x : BitVec 16) : (x.signExtend 32).setWidth 16 = x := by
  ext i bound
  simp only [BitVec.getElem_setWidth, BitVec.getLsbD_signExtend]
  simp [show i < 32 by omega, bound]

/-- What the process table holds fits a `short`. -/
lemma Agrees.fits (agrees : Agrees p) : Fits p.u_uid := by
  unfold Fits
  rw [← agrees, setWidth_signExtend]

omit [DecidableEq P] in
/-- A call that meets the condition keeps the two user ids equal. -/
lemma after_agrees {s : P → Proc} {p : P} {call : Call} (agrees : Agrees (s p))
    (calm : Calm s (.call p call)) (done : (s p).after call = .ok q) : Agrees q := by
  cases call with
  | setuid uid => exact setuid_agrees calm done
  | seteuid euid => exact seteuid_agrees agrees calm done
  | setgid gid => exact setgid_agrees agrees done
  | setegid egid => exact setegid_agrees agrees done
  | execve isuid isgid =>
    cases done
    cases isuid with
    | none => exact getxfile_agrees agrees agrees.fits _
    | some uid => exact getxfile_agrees agrees calm _
  | ptrace =>
    cases done
    exact agrees
  | exit =>
    cases done
    exact agrees

/-- Between two steps the two user ids of every process in use agree. -/
def Sound (s : P → Proc) : Prop := ∀ p, (s p).status ≠ .free → Agrees (s p)

lemma step_sound {s t : P → Proc} {a : Label P} (sound : Sound s) (calm : Calm s a)
    (step : Step s a t) : Sound t := by
  intro r used
  cases a with
  | call p call =>
    obtain ⟨alive, next⟩ := Option.ite_none_right_eq_some.mp step
    split at next
    · rename_i q done
      cases next
      by_cases same : r = p
      · subst same
        rw [update_self]
        exact after_agrees (sound r (by simp [alive])) calm done
      · rw [update_of_ne same] at used ⊢
        exact sound r used
    · cases next
      exact sound r used
  | newproc p child =>
    obtain ⟨⟨alive, -⟩, ⟨⟩⟩ := Option.ite_none_right_eq_some.mp step
    by_cases same : r = child
    · subst same
      rw [update_self]
      exact sound p (by simp [alive])
    · rw [update_of_ne same] at used ⊢
      exact sound r used
  | reap p =>
    obtain ⟨-, ⟨⟩⟩ := Option.ite_none_right_eq_some.mp step
    by_cases same : r = p
    · subst same
      simp at used
    · rw [update_of_ne same] at used ⊢
      exact sound r used

lemma boot_sound (first : P) : Sound (boot first) := fun _ _ => rfl

/-- For processes whose user ids agree, `cansignal` decides by the current ones. -/
lemma cansignal_eq {c : Proc} (sender : Agrees c) (target : Agrees q) (alive : q.status = .alive)
    (isCont inferior : Bool) :
    cansignal c q isCont inferior = mayBeSignalled c q isCont inferior := by
  have zero : c.p_uid = 0 ↔ c.u_uid = 0 := by
    rw [← sender]
    constructor
    · intro is
      rw [is]
      rfl
    · intro is
      rw [← setWidth_signExtend c.p_uid, is]
      rfl
  have same : c.p_uid = q.p_uid ↔ c.u_uid = q.u_uid := by
    rw [← sender, ← target]
    constructor
    · intro is
      rw [is]
    · intro is
      rw [← setWidth_signExtend c.p_uid, is, setWidth_signExtend]
  have real : fillFromU q = q.u_ruid := if_neg (by simp [alive])
  have sender' : c.p_uid.signExtend 32 = c.u_uid := sender
  have target' : q.p_uid.signExtend 32 = q.u_uid := target
  simp only [cansignal, mayBeSignalled, real, sender', target', zero, same]

/-- In every state that is reached the process table holds the effective user id of every live
process, and `cansignal` decides by the current ids of sender and target. -/
theorem uids_agree (first : P) (as : List (Label P)) (s : P → Proc)
    (run : Run Step Calm (boot first) as s) :
    (∀ p, (s p).status = .alive → (s p).p_uid.signExtend 32 = (s p).u_uid) ∧
      ∀ c q isCont inferior, (s c).status = .alive → (s q).status = .alive →
        cansignal (s c) (s q) isCont inferior = mayBeSignalled (s c) (s q) isCont inferior := by
  have sound := run_invariant Sound (fun _ _ _ sound calm step => step_sound sound calm step) run
    (boot_sound first)
  constructor
  · intro p alive
    exact sound p (by simp [alive])
  · intro c q isCont inferior sender target
    exact cansignal_eq (sound c (by simp [sender])) (sound q (by simp [target])) target isCont
      inferior

/-- The first process forks, and the child becomes an ordinary user, who starts an image of another
user. -/
def sampleCalls : List (Label (Fin 2)) :=
  [.newproc 0 1, .call 1 (.setuid 7), .call 1 (.execve (some 9) none)]

instance (s : Fin 2 → Proc) (a : Label (Fin 2)) : Decidable (Calm s a) := by
  cases a with
  | call p call =>
    cases call with
    | execve isuid isgid => cases isuid <;> unfold Calm <;> infer_instance
    | _ => unfold Calm; infer_instance
  | newproc p child => exact isTrue trivial
  | reap p => exact isTrue trivial

theorem uids_agree_sample :
    ∃ s : Fin 2 → Proc, Run Step Calm (boot 0) sampleCalls s ∧ (s 1).u_uid = 9 ∧
      (s 1).p_uid.signExtend 32 = (s 1).u_uid := by
  exact Exists.imp (fun s ⟨run, uid, alive⟩ => ⟨run, uid, (uids_agree 0 sampleCalls s run).1 1 alive⟩)
    (run_of_reached exec (P := fun s => (s 1).u_uid = 9 ∧ (s 1).status = .alive) (by decide))

/-- The same child goes back to its real user id with `seteuid`; the process table keeps the other,
and a process of user 9 may still send it signals by it. -/
theorem seteuid_leaves_p_uid :
    ∃ s : Fin 2 → Proc, Run Step (fun _ _ => True) (boot 0) (sampleCalls ++ [.call 1 (.seteuid 7)]) s ∧
      (s 1).status = .alive ∧ (s 1).u_uid = 7 ∧ (s 1).p_uid.signExtend 32 = (9 : Uid) := by
  exact run_of_reached exec (by decide)

/-! ## Privileges -/

/-- A process in use has only these user ids. -/
def Confined (U : Set Uid) (p : Proc) : Prop :=
  p.status ≠ .free → p.u_uid ∈ U ∧ p.u_ruid ∈ U ∧ p.u_svuid ∈ U

lemma after_confined {U : Set Uid} (root : 0 ∉ U) (confined : Confined U p)
    (alive : p.status = .alive) {call : Call} (done : p.after call = .ok q)
    (granted : ∀ uid gid, call = .execve (some uid) gid → uid ∈ U ∨ p.traced = true) :
    Confined U q := by
  have ids := confined (by simp [alive])
  have user : p.suser = false := decide_eq_false fun zero => root (zero ▸ ids.1)
  unfold Proc.after Proc.setuid Proc.seteuid Proc.setgid Proc.setegid Proc.execve at done
  cases call with
  | execve isuid => cases isuid <;> grind [Proc.getxfile, Proc.setProcUid, Confined]
  | _ => grind [Proc.setProcUid, Confined]

/-- Users get the rights of nobody whose images they do not start, the superuser included. -/
theorem users_confined {U : Set Uid} (root : 0 ∉ U) (as : List (Label P)) {s t : P → Proc}
    (start : ∀ p, Confined U (s p)) (run : Run Step (fun s a => ∀ p uid gid,
      a = .call p (.execve (some uid) gid) → uid ∈ U ∨ (s p).traced = true) s as t) :
    ∀ p, Confined U (t p) := by
  refine run_invariant (fun s => ∀ p, Confined U (s p)) ?_ run start
  intro s a t confined granted step
  have kept : ∀ p q, Confined U q → ∀ r, Confined U (update s p q r) := fun p q new =>
    (Function.forall_update_iff s fun _ => Confined U).mpr ⟨new, fun r _ => confined r⟩
  cases a with
  | call p call =>
    obtain ⟨alive, next⟩ := Option.ite_none_right_eq_some.mp step
    split at next <;> cases next
    · rename_i done
      exact kept p _ (after_confined root (confined p) alive done (by grind))
    · exact confined
  | newproc p child =>
    obtain ⟨⟨alive, -⟩, ⟨⟩⟩ := Option.ite_none_right_eq_some.mp step
    exact kept child _ fun _ => confined p (by simp [alive])
  | reap p =>
    obtain ⟨-, ⟨⟩⟩ := Option.ite_none_right_eq_some.mp step
    exact kept p _ fun used => absurd rfl used

theorem users_confined_sample : ∃ t : Fin 1 → Proc, (t 0).u_uid = 9 ∧ Confined {7, 9} (t 0) :=
  ⟨_, rfl, users_confined (by decide) [.call 0 (.execve (some 9) none)]
    (s := fun _ => ⟨.alive, 7, false, 7, 7, 7, 0, 0, 0⟩) (fun _ _ => by simp)
    (.cons (by simp) rfl (.nil _)) 0⟩

end Credentials
