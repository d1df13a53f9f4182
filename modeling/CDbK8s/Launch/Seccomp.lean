import CDbK8s.Base.Bytes

/-!
# The filter of system calls

`apply_seccomp` of `ns_util.c` installs a program of the packet filter machine, whose list of system
calls is printed by `gen_seccomp.awk`. Every entry jumps over the entries behind it and over the
instruction that kills, by an offset of eight bits that the script computes.
-/

namespace CDbK8s.Launch

open List

/-! ## The machine -/

/-- `struct seccomp_data`, as far as the filter loads it. -/
structure SeccompData where
  nr : UInt32
  arch : UInt32

/-- The fields that `BPF_LD | BPF_W | BPF_ABS` loads. -/
inductive SeccompField where
  | nr
  | arch
deriving DecidableEq

/-- `struct sock_filter`, for the instructions that the filter has. -/
inductive SockFilter where
  | ld (field : SeccompField)
  | jeq (k : UInt32) (jt jf : UInt8)
  | ret (k : UInt32)
deriving DecidableEq

/-- The word at a field. -/
def SeccompData.load (d : SeccompData) : SeccompField → UInt32
  | .nr => d.nr
  | .arch => d.arch

/-- Runs the filter from `pc` with `acc` in the accumulator, for `fuel` instructions at most. An
offset counts from the next instruction. -/
def runFilter (filter : List SockFilter) (d : SeccompData) : Nat → Nat → UInt32 → Option UInt32
  | 0, _, _ => none
  | fuel + 1, pc, acc =>
    match filter[pc]? with
    | none => none
    | some (.ld field) => runFilter filter d fuel (pc + 1) (d.load field)
    | some (.jeq k jt jf) =>
      runFilter filter d fuel (pc + 1 + (if acc = k then jt else jf).toNat) acc
    | some (.ret k) => some k

/-- The result of a filter. Its jumps go forward, so its length bounds the run. -/
def seccompRun (filter : List SockFilter) (d : SeccompData) : Option UInt32 :=
  runFilter filter d filter.length 0 0

/-! ## The filter -/

def AUDIT_ARCH_X86_64 : UInt32 := 0xc000003e

def SECCOMP_RET_KILL : UInt32 := 0

def SECCOMP_RET_ALLOW : UInt32 := 0x7fff0000

/-- The loop of `gen_seccomp.awk` over the system calls, from the number `i` on. -/
def genEntries (count : Nat) : Nat → List UInt32 → List SockFilter
  | _, [] => []
  | i, nr :: nrs => .jeq nr (UInt8.ofNat (count - i + 1)) 0 :: genEntries count (i + 1) nrs

/-- What `gen_seccomp.awk` prints for a list of system calls. -/
def genSeccomp (nrs : List UInt32) : List SockFilter :=
  genEntries nrs.length 1 nrs ++
    if nrs.length > 1 then [.ret SECCOMP_RET_KILL, .ret SECCOMP_RET_ALLOW] else []

/-- The filter of `apply_seccomp` around what the script prints. -/
def seccompFilter (printed : List SockFilter) : List SockFilter :=
  [.ld .arch, .jeq AUDIT_ARCH_X86_64 1 0, .ret SECCOMP_RET_KILL, .ld .nr] ++ printed

/-- The entries of `apply_seccomp`: the number of each system call, and its offset. -/
def committedEntries : List (UInt32 × UInt8) :=
  -- accept4 to epoll_wait
  [(288, 33), (158, 32), (49, 31), (12, 30), (3, 29), (42, 28), (291, 27), (233, 26), (232, 25),
  -- execve to mprotect
    (59, 24), (231, 23), (72, 22), (39, 21), (318, 20), (50, 19), (10, 18),
  -- newfstatat to rt_sigreturn
    (262, 17), (257, 16), (7, 15), (302, 14), (0, 13), (89, 12), (334, 11), (13, 10), (15, 9),
  -- set_robust_list to writev
    (273, 8), (218, 7), (54, 6), (48, 5), (41, 4), (63, 3), (1, 2), (20, 1)]

/-- The filter of `apply_seccomp`. -/
def applySeccomp : List SockFilter :=
  seccompFilter (committedEntries.map (fun e => .jeq e.1 e.2 0) ++
    [.ret SECCOMP_RET_KILL, .ret SECCOMP_RET_ALLOW])

/-! ## A run -/

theorem length_genEntries (count i : Nat) (nrs : List UInt32) :
    (genEntries count i nrs).length = nrs.length := by
  induction nrs generalizing i with
  | nil => rfl
  | cons _ nrs ih => rw [genEntries, length_cons, ih, length_cons]

theorem getElem?_genEntries (count i k : Nat) (nrs : List UInt32) : (genEntries count i nrs)[k]? =
    nrs[k]?.map fun nr => .jeq nr (UInt8.ofNat (count - (i + k) + 1)) 0 := by
  induction nrs generalizing i k with
  | nil => rfl
  | cons _ nrs ih =>
    cases k with
    | zero => rfl
    | succ k =>
      simp [genEntries, ih, add_right_comm, add_assoc]

section
variable {nrs : List UInt32} (hmin : 2 ≤ nrs.length) (hmax : nrs.length ≤ 255)

theorem filter_entry {k : Nat} (hk : k < nrs.length) : (seccompFilter (genSeccomp nrs))[4 + k]? =
    nrs[k]?.map fun nr => .jeq nr (UInt8.ofNat (nrs.length - k)) 0 := by
  have hoffset : nrs.length - (1 + k) + 1 = nrs.length - k := by omega
  rw [seccompFilter, List.getElem?_append_right (by simp), genSeccomp, List.getElem?_append_left
    (by rw [length_genEntries]; simpa using hk), getElem?_genEntries, ← hoffset]
  simp

include hmin

theorem filter_action (k : Nat) : (seccompFilter (genSeccomp nrs))[4 + nrs.length + k]? =
    [SockFilter.ret SECCOMP_RET_KILL, .ret SECCOMP_RET_ALLOW][k]? := by
  rw [seccompFilter, List.getElem?_append_right (by simp; omega), genSeccomp, if_pos (by omega),
    List.getElem?_append_right (by simp [length_genEntries]; omega), length_genEntries]
  exact congrArg _ (by simp; omega)

include hmax

/-- From the entry `k` on, the number is searched in what is left of the list. -/
theorem run_entries (d : SeccompData) (nr : UInt32) : ∀ (fuel k : Nat), k ≤ nrs.length →
    nrs.length - k + 1 ≤ fuel →
    runFilter (seccompFilter (genSeccomp nrs)) d fuel (4 + k) nr =
      some (if nr ∈ nrs.drop k then SECCOMP_RET_ALLOW else SECCOMP_RET_KILL) := by
  intro fuel
  induction fuel with
  | zero =>
    omega
  | succ fuel ih =>
    intro k hk _
    rw [runFilter]
    rcases Nat.lt_or_eq_of_le hk with hlt | rfl
    · rw [filter_entry hlt, List.getElem?_eq_getElem hlt, drop_eq_getElem_cons hlt]
      show runFilter _ d fuel _ nr = _
      by_cases heq : nr = nrs[k]
      · -- the jump ends at the last instruction
        have hjump : 4 + k + 1 + (UInt8.ofNat (nrs.length - k)).toNat = 4 + nrs.length + 1 := by
          simp
          omega
        obtain ⟨fuel, rfl⟩ : ∃ n, fuel = n + 1 := ⟨fuel - 1, by omega⟩
        rw [if_pos heq, hjump, runFilter, filter_action hmin, if_pos (by rw [heq]; exact mem_cons_self)]
        rfl
      · rw [if_neg heq, show 4 + k + 1 + (0 : UInt8).toNat = 4 + (k + 1) from rfl,
          ih _ hlt (by omega)]
        simp only [mem_cons, heq, false_or]
    · have haction := filter_action hmin 0
      rw [add_zero] at haction
      rw [haction, drop_length]
      rfl

/-- For every list of 2 to 255 system calls the filter allows those of the list under the
architecture x86-64 and kills for all else; the filter of `apply_seccomp` is of this form. -/
theorem whitelist_exact : (∀ d : SeccompData, seccompRun (seccompFilter (genSeccomp nrs)) d =
      some (if d.arch = AUDIT_ARCH_X86_64 ∧ d.nr ∈ nrs then SECCOMP_RET_ALLOW
        else SECCOMP_RET_KILL)) ∧
    applySeccomp = seccompFilter (genSeccomp (committedEntries.map Prod.fst)) ∧
    (committedEntries.map Prod.fst).Nodup ∧ committedEntries.length = 33 := by
  refine ⟨fun d => ?_, by decide +kernel, by decide +kernel, rfl⟩
  have hlen : (seccompFilter (genSeccomp nrs)).length = nrs.length + 6 := by
    rw [seccompFilter, length_append, genSeccomp, length_append, length_genEntries,
      if_pos (by omega)]
    simp
    omega
  rw [seccompRun, hlen]
  show runFilter _ d (nrs.length + 4)
    (1 + 1 + (if d.arch = AUDIT_ARCH_X86_64 then (1 : UInt8) else 0).toNat) d.arch = _
  by_cases harch : d.arch = AUDIT_ARCH_X86_64
  · have hrun := run_entries hmin hmax d d.nr (nrs.length + 3) 0 zero_le (by omega)
    simp only [harch, true_and]
    exact hrun
  · rw [if_neg harch, if_neg fun h => harch h.1]
    rfl

end

theorem read_write_exit_allowed :
    seccompRun (seccompFilter (genSeccomp [0, 1, 60])) ⟨1, AUDIT_ARCH_X86_64⟩ =
      some SECCOMP_RET_ALLOW := by
  exact ((@whitelist_exact [0, 1, 60] (by decide) (by decide)).1 _).trans (by decide)

end CDbK8s.Launch
