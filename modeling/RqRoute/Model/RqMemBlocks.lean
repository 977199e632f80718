import RqRoute.Model.Arith
import RqRoute.Library.Buffer

/-! # The codec interface and its work memory

`rq_api.h` belongs to an external library, so its functions are parameters: each
takes what it is passed and the contents of the memory it works on, and returns its
result code with the new contents. `rq_memblocks.c` manages that memory. -/

namespace RqRoute

/-- Contents of an area of bytes. -/
abbrev Bytes := ℕ → UInt8

/-- The functions of `rq_api.h`; `M` is what the codec keeps in its own work and
program memory. -/
structure RqApi (M : Type) where
  /-- `RQ_ERR_INSUFF_IDS`. -/
  errInsuffIds : ℤ
  interGetMemSizes : (K nExtra : ℤ) → ℤ × ℕ × ℕ × ℕ
  outGetMemSizes : (nOut : ℤ) → ℤ × ℕ × ℕ
  interInit : (K nExtra : ℤ) → M → ℕ → ℤ × M
  interAddIds : M → (idLo n : ℤ) → ℤ × M
  interCompile : (work prog : M) → ℕ → ℤ × M × M
  interExecute : (prog : M) → (T : ℕ) → Bytes → ℕ → Bytes → ℕ → ℤ × Bytes
  outInit : (K : ℤ) → M → ℕ → ℤ × M
  outAddIds : M → (idLo n : ℤ) → ℤ × M
  outCompile : (work prog : M) → ℕ → ℤ × M × M
  outExecute : (prog : M) → (T : ℕ) → Bytes → Bytes → ℕ → ℤ × Bytes

/-- What the program takes from outside: the codec, and whatever newly allocated
memory happens to hold. -/
structure Host (M : Type) extends RqApi M where
  freshWork : M
  freshByte : Bytes
  freshInt : ℕ → ℤ

/-- One of the blocks of `RqMemBlocks`: its recorded size, and the memory its pointer
leads to with the size that was allocated. The null pointer is an area of size 0. -/
structure MemBlock (C : Type) where
  nSize : ℕ
  allocated : ℕ
  contents : C

structure RqMemBlocks (M : Type) where
  nMaxK : ℤ
  nMaxExtraIn : ℤ
  nMaxOut : ℤ
  nMaxT : ℕ
  interWorkMem : MemBlock M
  interProgMem : MemBlock M
  interSymMem : MemBlock Bytes
  outWorkMem : MemBlock M
  outProgMem : MemBlock M

/-- The block before anything was allocated. -/
def MemBlock.null {C : Type} (c : C) : MemBlock C := { nSize := 0, allocated := 0, contents := c }

/-- `RqMemBlocks codec_mem = { 0 }`. -/
def RqMemBlocks.zero {M : Type} (host : Host M) : RqMemBlocks M :=
  { nMaxK := 0, nMaxExtraIn := 0, nMaxOut := 0, nMaxT := 0
    interWorkMem := .null host.freshWork
    interProgMem := .null host.freshWork
    interSymMem := .null host.freshByte
    outWorkMem := .null host.freshWork
    outProgMem := .null host.freshWork }

/-- The macro `alloc`: replace a block that is too small. -/
def MemBlock.alloc {C : Type} (b : MemBlock C) (nSize : ℕ) (fresh : C) : MemBlock C :=
  if nSize > b.nSize then { nSize, allocated := nSize, contents := fresh } else b

def rqMemBlocksIncludeCase {M : Type} (host : Host M) (B : RqMemBlocks M)
    (nMaxK nMaxExtraIn nMaxOut : ℤ) (nMaxT : ℕ) : ℤ × RqMemBlocks M :=
  let inter := host.interGetMemSizes nMaxK nMaxExtraIn
  if inter.1 < 0 then (inter.1, B)
  else
    let nInterSymMemSize := sizeMul nMaxT inter.2.2.2
    let out := host.outGetMemSizes nMaxOut
    if out.1 < 0 then (out.1, B)
    else
      (0, { nMaxK, nMaxExtraIn, nMaxOut, nMaxT
            interWorkMem := B.interWorkMem.alloc inter.2.1 host.freshWork
            interProgMem := B.interProgMem.alloc inter.2.2.1 host.freshWork
            interSymMem := B.interSymMem.alloc nInterSymMemSize host.freshByte
            outWorkMem := B.outWorkMem.alloc out.2.1 host.freshWork
            outProgMem := B.outProgMem.alloc out.2.2 host.freshWork })

end RqRoute
