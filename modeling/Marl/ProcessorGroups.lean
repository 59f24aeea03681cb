import Mathlib.Algebra.Group.Nat.Basic
import Mathlib.Data.List.Basic

/-!
# Processor groups on Windows

`getProcessorGroups`, `Thread::numLogicalCPUs` and `getGroupAffinity` of `thread.cpp` as the code computes them.
`processorGroups_first_only`: every group of a record is read from `GroupInfo[0]`. `getGroupAffinity_spec` and
`numLogicalCPUs_eq_total`: over the groups it is given, the lookup finds an index exactly when it is below the total,
in the group whose range holds it, and the count is that total.
-/

namespace Marl.ProcessorGroups

/-! ## The records and the code -/

/-- `PROCESSOR_GROUP_INFO`: how many processors of the group are active, and their `KAFFINITY` mask. -/
structure ProcessorGroupInfo where
  activeProcessorCount : Nat
  activeProcessorMask : Nat
  deriving DecidableEq, Repr

/-- `LOGICAL_PROCESSOR_RELATIONSHIP`: `RelationGroup`, or another relationship. -/
inductive Relationship
  | group
  | other
  deriving DecidableEq, Repr

/-- A `SYSTEM_LOGICAL_PROCESSOR_INFORMATION_EX` record: its relationship and, for `RelationGroup`, the
`ActiveGroupCount` and `GroupInfo` array of its `GROUP_RELATIONSHIP`. -/
structure InfoEx where
  relationship : Relationship
  activeGroupCount : Nat
  groupInfo : List ProcessorGroupInfo
  deriving DecidableEq, Repr

/-- `ProcessorGroup`: the number of logical processors of a group and its affinity mask. -/
structure ProcessorGroup where
  count : Nat
  affinity : Nat
  deriving DecidableEq, Repr

/-- `GROUP_AFFINITY`: the group number (a `WORD`) and the mask. -/
structure GroupAffinity where
  group : Nat
  mask : Nat
  deriving DecidableEq, Repr

/-- The groups `getProcessorGroups` reads from one record: for each `groupIdx` below `ActiveGroupCount` it pushes
`groupInfo->ActiveProcessorCount` and `groupInfo->ActiveProcessorMask`, where `groupInfo` is the array
`GroupInfo`, so `->` reads its first entry. -/
def recordGroups (r : InfoEx) : List ProcessorGroup :=
  (List.range r.activeGroupCount).map fun _ =>
    let groupInfo := r.groupInfo.headD ⟨0, 0⟩
    ⟨groupInfo.activeProcessorCount, groupInfo.activeProcessorMask⟩

/-- `getProcessorGroups`, over the records `GetLogicalProcessorInformationEx` wrote. -/
def getProcessorGroups (info : List InfoEx) : List ProcessorGroup :=
  info.flatMap fun r => if r.relationship = .group then recordGroups r else []

/-- `Thread::numLogicalCPUs` on Windows: the sum of the group counts, in an `unsigned int`. -/
def numLogicalCPUs (info : List InfoEx) : Nat :=
  (getProcessorGroups info).foldl (fun count group => (count + group.count) % 2 ^ 32) 0

/-- The inner loop of `getGroupAffinity` over the bits `i` of `affinity`: at each set bit, stop if `index` is `0`,
else count it off. Whether it stopped. -/
def scanBits (affinity : Nat) : Nat → List Nat → Bool
  | _, [] => false
  | index, i :: is =>
    if affinity &&& (1 <<< i) != 0 then
      if index = 0 then true else scanBits affinity (index - 1) is
    else scanBits affinity index is

/-- The outer loop of `getGroupAffinity`, from group `groupIdx` on. -/
def affinityFrom : List ProcessorGroup → Nat → Nat → Option GroupAffinity
  | [], _, _ => none
  | group :: groups, index, groupIdx =>
    if index < group.count then
      if scanBits group.affinity index (List.range 64) then some ⟨groupIdx % 2 ^ 16, group.affinity⟩ else none
    else affinityFrom groups (index - group.count) (groupIdx + 1)

/-- `getGroupAffinity(index, &groupAffinity)`: `some` of what it writes when it returns `true`. -/
def getGroupAffinity (info : List InfoEx) (index : Nat) : Option GroupAffinity :=
  affinityFrom (getProcessorGroups info) index 0

/-! ## `getGroupAffinity` walks the groups right -/

/-- The number of set bits of a 64-bit mask. -/
def popcount (m : Nat) : Nat := ((List.range 64).filter m.testBit).length

/-- The sum of the counts of some groups. -/
def total : List ProcessorGroup → Nat
  | [] => 0
  | g :: gs => g.count + total gs

@[simp] theorem total_nil : total [] = 0 := rfl

@[simp] theorem total_cons (g : ProcessorGroup) (gs : List ProcessorGroup) : total (g :: gs) = g.count + total gs :=
  rfl

theorem and_one_shiftLeft_ne_zero (a i : Nat) : (a &&& (1 <<< i) != 0) = a.testBit i := by
  rw [Nat.one_shiftLeft]
  cases h : a.testBit i
  · have : a &&& 2 ^ i = 0 := Nat.eq_of_testBit_eq fun j => by
      simp only [Nat.testBit_and, Nat.testBit_two_pow, Nat.zero_testBit]
      by_cases hj : i = j
      · subst hj; simp [h]
      · simp [hj]
    simp [this]
  · have : a &&& 2 ^ i ≠ 0 := fun e => by
      have := congrArg (Nat.testBit · i) e
      simp [Nat.testBit_and, h] at this
    simpa using this

/-- The bit loop stops exactly when there are more than `index` set bits among those it scans. -/
theorem scanBits_eq (a : Nat) (l : List Nat) (index : Nat) :
    scanBits a index l = decide (index < (l.filter a.testBit).length) := by
  induction l generalizing index with
  | nil => simp [scanBits]
  | cons i is ih =>
    rw [scanBits, and_one_shiftLeft_ne_zero]
    by_cases hb : a.testBit i
    · by_cases h0 : index = 0
      · simp [hb, h0]
      · simp only [hb, h0, if_true, if_false, ih, List.filter_cons_of_pos hb, List.length_cons]
        simp only [decide_eq_decide]
        omega
    · simp [hb, ih]

variable {groups : List ProcessorGroup}

/-- When every mask has as many set bits as its group has processors, the walk from group number `k` finds the
group whose range of indices holds `index`, with its mask. -/
theorem affinityFrom_some_iff (hpop : ∀ g ∈ groups, popcount g.affinity = g.count) (index k : Nat)
    (a : GroupAffinity) :
    affinityFrom groups index k = some a ↔ ∃ j g, groups[j]? = some g ∧ total (groups.take j) ≤ index ∧
      index < total (groups.take j) + g.count ∧ a = ⟨(k + j) % 2 ^ 16, g.affinity⟩ := by
  induction groups generalizing index k with
  | nil => simp [affinityFrom]
  | cons g gs ih =>
    have hg : popcount g.affinity = g.count := hpop g (List.mem_cons_self _ _)
    by_cases hi : index < g.count
    · have hs : scanBits g.affinity index (List.range 64) = true := by
        rw [scanBits_eq, decide_eq_true_eq]; rw [popcount] at hg; omega
      simp only [affinityFrom, hi, if_true, hs, Option.some.injEq]
      constructor
      · rintro rfl; exact ⟨0, g, by simp, by simp, by simpa using hi, by simp⟩
      · rintro ⟨j, g', hj, hle, -, rfl⟩
        cases j with
        | zero => simp at hj; subst hj; rfl
        | succ j => simp at hle; omega
    · simp only [affinityFrom, hi, if_false, ih (fun g' hm => hpop g' (List.mem_cons_of_mem _ hm))]
      constructor
      · rintro ⟨j, g', hj, hle, hlt, rfl⟩
        refine ⟨j + 1, g', by simpa using hj, by simp; omega, by simp; omega, by simp; congr 1; omega⟩
      · rintro ⟨j, g', hj, hle, hlt, rfl⟩
        cases j with
        | zero => simp at hj; subst hj; simp at hlt; omega
        | succ j =>
          refine ⟨j, g', by simpa using hj, by simp at hle; omega, by simp at hlt; omega, by congr 1; omega⟩

/-- The walk finds nothing exactly when `index` is at least the number of processors. -/
theorem affinityFrom_none_iff (hpop : ∀ g ∈ groups, popcount g.affinity = g.count) (index k : Nat) :
    affinityFrom groups index k = none ↔ total groups ≤ index := by
  induction groups generalizing index k with
  | nil => simp [affinityFrom]
  | cons g gs ih =>
    have hg : popcount g.affinity = g.count := hpop g (List.mem_cons_self _ _)
    by_cases hi : index < g.count
    · have hs : scanBits g.affinity index (List.range 64) = true := by
        rw [scanBits_eq, decide_eq_true_eq]; rw [popcount] at hg; omega
      simp only [affinityFrom, hi, if_true, hs, reduceCtorEq, false_iff, total_cons]
      omega
    · simp only [affinityFrom, hi, if_false, ih (fun g' hm => hpop g' (List.mem_cons_of_mem _ hm)), total_cons]
      omega

/-- `getGroupAffinity` is right for the groups `getProcessorGroups` gives it: when every mask has as many set bits
as its count, it fails exactly for the indices past the total, and otherwise finds the group whose range of indices
holds `index`, with that group's mask. -/
theorem getGroupAffinity_spec (info : List InfoEx)
    (hpop : ∀ g ∈ getProcessorGroups info, popcount g.affinity = g.count) (index : Nat) :
    (getGroupAffinity info index = none ↔ total (getProcessorGroups info) ≤ index) ∧
    ∀ a, getGroupAffinity info index = some a ↔ ∃ j g, (getProcessorGroups info)[j]? = some g ∧
      total ((getProcessorGroups info).take j) ≤ index ∧
      index < total ((getProcessorGroups info).take j) + g.count ∧ a = ⟨j % 2 ^ 16, g.affinity⟩ := by
  refine ⟨affinityFrom_none_iff hpop index 0, fun a => ?_⟩
  simpa using affinityFrom_some_iff hpop index 0 a

/-- Two records, with a group of two processors (mask `0b11`) and a group of one (mask `0b1`): index `2` is found
in the second group, and index `3`, the total, in none. -/
theorem getGroupAffinity_spec_twoGroups :
    let info : List InfoEx := [⟨.group, 1, [⟨2, 3⟩]⟩, ⟨.group, 1, [⟨1, 1⟩]⟩]
    (∀ g ∈ getProcessorGroups info, popcount g.affinity = g.count) ∧
      getGroupAffinity info 2 = some ⟨1, 1⟩ ∧ getGroupAffinity info 3 = none := by
  intro info
  have hpop : ∀ g ∈ getProcessorGroups info, popcount g.affinity = g.count := by decide
  exact ⟨hpop, ((getGroupAffinity_spec info hpop 2).2 _).2 ⟨1, ⟨1, 1⟩, rfl, by decide, by decide, rfl⟩,
    (getGroupAffinity_spec info hpop 3).1.2 (by decide)⟩

theorem foldl_count (gs : List ProcessorGroup) (c : Nat) :
    gs.foldl (fun count group => (count + group.count) % 2 ^ 32) (c % 2 ^ 32) = (c + total gs) % 2 ^ 32 := by
  induction gs generalizing c with
  | nil => rfl
  | cons g gs ih => rw [List.foldl_cons, Nat.mod_add_mod, ih, total_cons, Nat.add_assoc]

/-- `numLogicalCPUs` is the number of processors of the groups, wrapped to an `unsigned int`. -/
theorem numLogicalCPUs_eq_total (info : List InfoEx) :
    numLogicalCPUs info = total (getProcessorGroups info) % 2 ^ 32 := by
  simpa using foldl_count (getProcessorGroups info) 0

/-! ## Two groups of different sizes -/

/-- One `RelationGroup` record with two groups: one processor (mask `0b1`) and two processors (mask `0b11`). -/
def twoGroups : List InfoEx := [⟨.group, 2, [⟨1, 1⟩, ⟨2, 3⟩]⟩]

/-- The code sees the first group twice: two processors instead of three, no group for index `2`, and the first
group's mask for index `1`, which lies in the second group. -/
theorem processorGroups_first_only :
    getProcessorGroups twoGroups = [⟨1, 1⟩, ⟨1, 1⟩] ∧ numLogicalCPUs twoGroups = 2 ∧
      getGroupAffinity twoGroups 2 = none ∧ getGroupAffinity twoGroups 1 = some ⟨1, 1⟩ := by
  decide

end Marl.ProcessorGroups
