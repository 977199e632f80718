import Mathlib.Data.List.Perm.Basic
import RqRoute.Model.RqMemBlocks
import RqRoute.Verification.Codec.Contract

/-! # The work memory that is lent to the codec

The blocks of `RqMemBlocks` only grow. After any sequence of `RqMemBlocksIncludeCase` calls
each of them is as large as the largest demand met so far. -/

namespace RqRoute

variable {M : Type}

/-- The blocks are as large as the codec asks for. -/
structure Roomy (api : RqApi M) (K nExtra nOut : ℤ) (T : ℕ) (B : RqMemBlocks M) : Prop where
  interWork : (api.interGetMemSizes K nExtra).2.1 ≤ B.interWorkMem.nSize
  interProg : (api.interGetMemSizes K nExtra).2.2.1 ≤ B.interProgMem.nSize
  interSym : sizeMul T (api.interGetMemSizes K nExtra).2.2.2 ≤ B.interSymMem.nSize
  outWork : (api.outGetMemSizes nOut).2.1 ≤ B.outWorkMem.nSize
  outProg : (api.outGetMemSizes nOut).2.2 ≤ B.outProgMem.nSize

/-! ## The five blocks -/

inductive MemPart where
  | interWork
  | interProg
  | interSym
  | outWork
  | outProg
deriving DecidableEq, Repr

namespace RqMemBlocks

/-- The recorded size of a block. -/
def recorded (B : RqMemBlocks M) : MemPart → ℕ
  | .interWork => B.interWorkMem.nSize
  | .interProg => B.interProgMem.nSize
  | .interSym => B.interSymMem.nSize
  | .outWork => B.outWorkMem.nSize
  | .outProg => B.outProgMem.nSize

/-- The size a block was allocated with. -/
def allocated (B : RqMemBlocks M) : MemPart → ℕ
  | .interWork => B.interWorkMem.allocated
  | .interProg => B.interProgMem.allocated
  | .interSym => B.interSymMem.allocated
  | .outWork => B.outWorkMem.allocated
  | .outProg => B.outProgMem.allocated

end RqMemBlocks

/-- The arguments of an `RqMemBlocksIncludeCase` call. -/
structure MemCase where
  nMaxK : ℤ
  nMaxExtraIn : ℤ
  nMaxOut : ℤ
  nMaxT : ℕ
deriving DecidableEq, Repr

namespace MemCase

/-- The size of a block that the codec asks for; the size of the symbol memory is a product
in `size_t`. -/
def demand (api : RqApi M) (c : MemCase) : MemPart → ℕ
  | .interWork => (api.interGetMemSizes c.nMaxK c.nMaxExtraIn).2.1
  | .interProg => (api.interGetMemSizes c.nMaxK c.nMaxExtraIn).2.2.1
  | .interSym => sizeMul c.nMaxT (api.interGetMemSizes c.nMaxK c.nMaxExtraIn).2.2.2
  | .outWork => (api.outGetMemSizes c.nMaxOut).2.1
  | .outProg => (api.outGetMemSizes c.nMaxOut).2.2

/-- The symbol memory that a case needs. -/
def interSymBytes (api : RqApi M) (c : MemCase) : ℕ :=
  c.nMaxT * (api.interGetMemSizes c.nMaxK c.nMaxExtraIn).2.2.2

theorem demand_interSym {api : RqApi M} {c : MemCase} (h : c.interSymBytes api < 2 ^ 64) :
    c.demand api .interSym = c.interSymBytes api := sizeMul_of_lt h

/-- Neither of the size functions fails. -/
def Succeeds (api : RqApi M) (c : MemCase) : Prop :=
  0 ≤ (api.interGetMemSizes c.nMaxK c.nMaxExtraIn).1 ∧ 0 ≤ (api.outGetMemSizes c.nMaxOut).1

instance (api : RqApi M) (c : MemCase) : Decidable (c.Succeeds api) :=
  inferInstanceAs (Decidable (_ ∧ _))

/-- The call with these arguments. -/
def run (host : Host M) (B : RqMemBlocks M) (c : MemCase) : ℤ × RqMemBlocks M :=
  rqMemBlocksIncludeCase host B c.nMaxK c.nMaxExtraIn c.nMaxOut c.nMaxT

end MemCase

/-! ## One call -/

theorem nSize_alloc {C : Type} (b : MemBlock C) (n : ℕ) (fresh : C) :
    (b.alloc n fresh).nSize = max b.nSize n := by
  unfold MemBlock.alloc
  split <;> rename_i hn
  · exact (Nat.max_eq_right (Nat.le_of_lt hn)).symm
  · exact (Nat.max_eq_left (Nat.le_of_not_lt hn)).symm

theorem allocated_alloc {C : Type} {b : MemBlock C} (h : b.nSize = b.allocated) (n : ℕ)
    (fresh : C) : (b.alloc n fresh).nSize = (b.alloc n fresh).allocated := by
  unfold MemBlock.alloc
  split
  · rfl
  · exact h

theorem le_nSize_alloc {C : Type} (b : MemBlock C) (n : ℕ) (fresh : C) :
    n ≤ (b.alloc n fresh).nSize := by
  rw [nSize_alloc]
  exact Nat.le_max_right ..

/-- `RqMemBlocksIncludeCase` makes room, and whether it can depends on the codec alone. -/
theorem rqMemBlocksIncludeCase_spec (host : Host M) (B : RqMemBlocks M) (K nExtra nOut : ℤ)
    (T : ℕ) :
    (rqMemBlocksIncludeCase host B K nExtra nOut T).1 =
        (if (host.interGetMemSizes K nExtra).1 < 0 then (host.interGetMemSizes K nExtra).1
          else min (host.outGetMemSizes nOut).1 0) ∧
      (0 ≤ (rqMemBlocksIncludeCase host B K nExtra nOut T).1 →
        Roomy host.toRqApi K nExtra nOut T (rqMemBlocksIncludeCase host B K nExtra nOut T).2) := by
  unfold rqMemBlocksIncludeCase
  by_cases hin : (host.interGetMemSizes K nExtra).1 < 0
  · simp only [hin, ↓reduceIte, true_and]
    intro h
    omega
  · by_cases hout : (host.outGetMemSizes nOut).1 < 0
    · simp only [hin, hout, ↓reduceIte]
      exact ⟨by omega, fun h => absurd h (by omega)⟩
    · simp only [hin, hout, ↓reduceIte]
      exact ⟨by omega, fun _ => ⟨le_nSize_alloc .., le_nSize_alloc .., le_nSize_alloc ..,
        le_nSize_alloc .., le_nSize_alloc ..⟩⟩

namespace MemCase

variable {host : Host M} {B : RqMemBlocks M} {c : MemCase}

/-- A call with a size function that fails changes nothing. -/
theorem run_of_not_succeeds (h : ¬c.Succeeds host.toRqApi) :
    (c.run host B).1 < 0 ∧ (c.run host B).2 = B := by
  simp only [run, rqMemBlocksIncludeCase]
  by_cases hin : (host.interGetMemSizes c.nMaxK c.nMaxExtraIn).1 < 0
  · simp only [if_pos hin]
    exact ⟨hin, trivial⟩
  · by_cases hout : (host.outGetMemSizes c.nMaxOut).1 < 0
    · simp only [if_neg hin, if_pos hout]
      exact ⟨hout, trivial⟩
    · exact absurd ⟨by omega, by omega⟩ h

/-- Otherwise each block is replaced if it is too small. -/
theorem run_of_succeeds (h : c.Succeeds host.toRqApi) :
    c.run host B = (0, {
      nMaxK := c.nMaxK
      nMaxExtraIn := c.nMaxExtraIn
      nMaxOut := c.nMaxOut
      nMaxT := c.nMaxT
      interWorkMem := B.interWorkMem.alloc (c.demand host.toRqApi .interWork) host.freshWork
      interProgMem := B.interProgMem.alloc (c.demand host.toRqApi .interProg) host.freshWork
      interSymMem := B.interSymMem.alloc (c.demand host.toRqApi .interSym) host.freshByte
      outWorkMem := B.outWorkMem.alloc (c.demand host.toRqApi .outWork) host.freshWork
      outProgMem := B.outProgMem.alloc (c.demand host.toRqApi .outProg) host.freshWork }) := by
  obtain ⟨hin, hout⟩ := h
  simp only [run, rqMemBlocksIncludeCase, if_neg (Int.not_lt.mpr hin),
    if_neg (Int.not_lt.mpr hout)]
  rfl

theorem succeeds_iff : c.Succeeds host.toRqApi ↔ 0 ≤ (c.run host B).1 := by
  constructor
  · intro h
    have hrc : (c.run host B).1 = 0 := congrArg Prod.fst (run_of_succeeds h)
    exact Int.le_of_eq hrc.symm
  · intro h
    by_contra hno
    have hneg := (run_of_not_succeeds (B := B) hno).1
    omega

theorem recorded_run (h : c.Succeeds host.toRqApi) (p : MemPart) :
    (c.run host B).2.recorded p = max (B.recorded p) (c.demand host.toRqApi p) := by
  rw [run_of_succeeds h]
  cases p <;> exact nSize_alloc ..

/-- Every block keeps the size that is recorded for it. -/
theorem allocated_run (h : B.recorded = B.allocated) :
    (c.run host B).2.recorded = (c.run host B).2.allocated := by
  by_cases hc : c.Succeeds host.toRqApi
  · rw [run_of_succeeds hc]
    funext p
    have hp := congrFun h p
    cases p <;> exact allocated_alloc hp ..
  · rw [(run_of_not_succeeds hc).2, h]

end MemCase

/-! ## Sequences of calls -/

/-- The largest demand of the calls that succeed. -/
def peakDemand (api : RqApi M) (cases : List MemCase) (p : MemPart) : ℕ :=
  ((cases.filter fun c => c.Succeeds api).map fun c => c.demand api p).foldr max 0

theorem le_foldr_max {n : ℕ} {xs : List ℕ} (h : n ∈ xs) : n ≤ xs.foldr max 0 := by
  induction xs with
  | nil => cases h
  | cons x xs ih =>
      rw [List.foldr_cons]
      rcases List.mem_cons.mp h with rfl | h
      · exact Nat.le_max_left ..
      · exact Nat.le_trans (ih h) (Nat.le_max_right ..)

theorem peakDemand_perm {api : RqApi M} {cases cases' : List MemCase} (h : cases.Perm cases') :
    peakDemand api cases = peakDemand api cases' := by
  funext p
  exact ((h.filter _).map _).foldr_eq 0

theorem peakDemand_concat (api : RqApi M) (cases : List MemCase) (c : MemCase) (p : MemPart) :
    peakDemand api (cases ++ [c]) p =
      if c.Succeeds api then max (peakDemand api cases p) (c.demand api p)
      else peakDemand api cases p := by
  have hfront : peakDemand api (cases ++ [c]) p = peakDemand api (c :: cases) p :=
    congrFun (peakDemand_perm (List.perm_append_singleton c cases)) p
  rw [hfront, peakDemand, List.filter_cons]
  by_cases hc : c.Succeeds api
  · rw [if_pos (by simpa using hc), if_pos hc, List.map_cons, List.foldr_cons, Nat.max_comm]
    rfl
  · rw [if_neg (by simpa using hc), if_neg hc]
    rfl

theorem demand_le_peakDemand {api : RqApi M} {cases : List MemCase} {c : MemCase}
    (hc : c ∈ cases) (hok : c.Succeeds api) (p : MemPart) :
    c.demand api p ≤ peakDemand api cases p :=
  le_foldr_max (List.mem_map.mpr ⟨c, List.mem_filter.mpr ⟨hc, by simpa using hok⟩, rfl⟩)

/-- The memory after a sequence of calls. Between them the codec may write into the blocks,
but it can neither move nor resize them. -/
inductive MemReached (host : Host M) : List MemCase → RqMemBlocks M → Prop
  | zero : MemReached host [] (.zero host)
  | call {cases : List MemCase} {B : RqMemBlocks M} (h : MemReached host cases B) (c : MemCase) :
      MemReached host (cases ++ [c]) (c.run host B).2
  | fill {cases : List MemCase} {B B' : RqMemBlocks M} (h : MemReached host cases B)
      (hrec : B'.recorded = B.recorded) (halloc : B'.allocated = B.allocated) :
      MemReached host cases B'

namespace MemReached

variable {host : Host M} {cases : List MemCase} {B : RqMemBlocks M}

theorem recorded_eq_allocated (h : MemReached host cases B) : B.recorded = B.allocated := by
  induction h with
  | zero =>
      funext p
      cases p <;> rfl
  | call _ c ih => exact MemCase.allocated_run ih
  | fill _ hrec halloc ih => rw [hrec, halloc, ih]

/-- Every block is as large as the largest demand so far. -/
theorem recorded_eq_peakDemand (h : MemReached host cases B) :
    B.recorded = peakDemand host.toRqApi cases := by
  induction h with
  | zero =>
      funext p
      cases p <;> rfl
  | @call cases B h c ih =>
      funext p
      rw [peakDemand_concat]
      by_cases hc : c.Succeeds host.toRqApi
      · rw [if_pos hc, MemCase.recorded_run hc, ih]
      · rw [if_neg hc, (MemCase.run_of_not_succeeds hc).2, ih]
  | fill _ hrec _ ih => rw [hrec, ih]

theorem roomy (h : MemReached host cases B) {c : MemCase} (hc : c ∈ cases)
    (hok : c.Succeeds host.toRqApi) :
    Roomy host.toRqApi c.nMaxK c.nMaxExtraIn c.nMaxOut c.nMaxT B := by
  have hle : ∀ p, c.demand host.toRqApi p ≤ B.recorded p := fun p => by
    rw [h.recorded_eq_peakDemand]
    exact demand_le_peakDemand hc hok p
  exact ⟨hle .interWork, hle .interProg, hle .interSym, hle .outWork, hle .outProg⟩

end MemReached

/-- After a call that succeeds, every block has the size that is recorded for it, and this
is the largest size asked for by the calls that succeeded so far, in whatever order they
came. So the memory is large enough for all of them; below 2^64 bytes the symbol memory has room
for all symbols. A call that fails changes nothing. -/
theorem memBlocks_fit {host : Host M} {cases : List MemCase} {B : RqMemBlocks M}
    (h : MemReached host cases B) (c : MemCase) :
    ((c.run host B).1 < 0 → (c.run host B).2 = B) ∧
    (0 ≤ (c.run host B).1 →
      (∀ p, (c.run host B).2.recorded p = (c.run host B).2.allocated p ∧
        (c.run host B).2.recorded p = peakDemand host.toRqApi (cases ++ [c]) p) ∧
      (∀ c' ∈ cases ++ [c], c'.Succeeds host.toRqApi →
        Roomy host.toRqApi c'.nMaxK c'.nMaxExtraIn c'.nMaxOut c'.nMaxT (c.run host B).2 ∧
        (c'.interSymBytes host.toRqApi < 2 ^ 64 →
          c'.interSymBytes host.toRqApi ≤ (c.run host B).2.allocated .interSym)) ∧
      ∀ cases' B', MemReached host cases' B' → cases'.Perm (cases ++ [c]) →
        B'.recorded = (c.run host B).2.recorded) := by
  have hafter := h.call c
  refine ⟨fun hneg => (MemCase.run_of_not_succeeds fun hc => ?_).2, fun _ =>
    ⟨fun p => ⟨?_, ?_⟩, ?_, ?_⟩⟩
  · have hpos := MemCase.succeeds_iff (B := B).mp hc
    omega
  · rw [hafter.recorded_eq_allocated]
  · rw [hafter.recorded_eq_peakDemand]
  · intro c' hc' hok
    refine ⟨hafter.roomy hc' hok, fun hfits => ?_⟩
    rw [← MemCase.demand_interSym hfits, ← hafter.recorded_eq_allocated,
      hafter.recorded_eq_peakDemand]
    exact demand_le_peakDemand hc' hok .interSym
  · intro cases' B' h' hperm
    rw [h'.recorded_eq_peakDemand, hafter.recorded_eq_peakDemand, peakDemand_perm hperm]

/-- A codec with size functions that do not move together. -/
def unevenHost : Host Unit :=
  { refusingHost with
    interGetMemSizes := fun K nExtra => (0, K.toNat, nExtra.toNat, 2)
    outGetMemSizes := fun nOut => (if nOut > 9 then -1 else 0, (9 - nOut).toNat, 5) }

/-- A second case that needs more of some blocks and less of others. -/
theorem memBlocks_fit_uneven :
    let B := ((MemCase.mk 3 4 3 1024).run unevenHost (.zero unevenHost)).2
    ((MemCase.mk 8 1 8 1024).run unevenHost B).2.recorded .interWork = 8 ∧
      ((MemCase.mk 8 1 8 1024).run unevenHost B).2.recorded .outWork = 6 :=
  have hfit := (memBlocks_fit (MemReached.zero.call ⟨3, 4, 3, 1024⟩ : MemReached unevenHost _ _)
    ⟨8, 1, 8, 1024⟩).2 (by decide)
  ⟨(hfit.1 .interWork).2.trans (by decide), (hfit.1 .outWork).2.trans (by decide)⟩

end RqRoute
