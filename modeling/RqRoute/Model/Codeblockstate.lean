import RqRoute.Model.RqMemBlocks

/-! # Code blocks

`codeblockstate.c`: the symbols received for one code block, in order of arrival, with
a hash table of their ids, and the reconstruction of the source block from them. -/

namespace RqRoute

open Checked Memory

/-- `H_MULT`, the multiplier for hashing. -/
def hMult : ℤ := 29

structure Codeblockstate where
  K : ℕ
  T : ℕ
  n_esi_max : ℕ
  n_esi : ℕ
  esi : Buffer ℤ
  n_src_esi : ℕ
  hash_esi_sz : ℕ
  hash_esi : Buffer ℤ
  syms_buf : Buffer UInt8

/-- The size of the hash table for `n_esi_max` symbols, never a multiple of `H_MULT`. -/
def hashEsiSize (n_esi_max : ℕ) : ℕ :=
  let sz := n_esi_max * 5 / 2
  if sz % hMult.toNat = 0 then sz + 1 else sz

def codeblockstateInit {M : Type} (host : Host M) (K T : ℕ) : Codeblockstate :=
  let n_esi_max := K + 30
  let hash_esi_sz := hashEsiSize n_esi_max
  { K, T, n_esi_max
    n_esi := 0
    esi := { size := n_esi_max, cell := host.freshInt }
    n_src_esi := 0
    hash_esi_sz
    hash_esi := { size := hash_esi_sz, cell := fun _ => -1 }
    syms_buf := { size := T * n_esi_max, cell := host.freshByte } }

/-- The probing loop: `some` is the free entry the id goes to, `none` means that the id
is already there. Running out of fuel is a loop that does not end. -/
def probeHash (S : Codeblockstate) (sym_id : ℤ) : (fuel hent : ℕ) → Except Fault (Option ℕ)
  | 0, _ => .error .endlessLoop
  | fuel + 1, hent => do
    let entry ← orElse (S.hash_esi.load? hent) .outOfBounds
    if entry = -1 then return some hent
    else if entry = sym_id then return none
    else probeHash S sym_id fuel (if hent + 1 = S.hash_esi_sz then 0 else hent + 1)

/-- `(sym_id * H_MULT) % hash_esi_sz`; a negative index lies outside the table. -/
def hashHome (S : Codeblockstate) (sym_id : ℤ) : Except Fault ℕ := do
  check (FitsInt (sym_id * hMult)) .intOverflow
  let hent := (sym_id * hMult).tmod S.hash_esi_sz
  check (0 ≤ hent) .outOfBounds
  return hent.toNat

/-- The symbol data and counters of a symbol that entered the table at `hent`. -/
def storeSym (S : Codeblockstate) (hent : ℕ) (sym_id : ℤ) (payload : List UInt8) :
    Except Fault Codeblockstate := do
  let hash_esi ← orElse (S.hash_esi.store? hent sym_id) .outOfBounds
  let esi ← orElse (S.esi.store? S.n_esi sym_id) .outOfBounds
  let offs := S.T * S.n_esi
  let syms_buf ← orElse (S.syms_buf.write? offs payload) .outOfBounds
  -- zero padding; it writes nothing when the payload is a whole symbol
  let syms_buf ← orElse (syms_buf.write? (payload.length + offs)
    (List.replicate (S.T - payload.length) 0)) .outOfBounds
  return { S with
    hash_esi, esi, syms_buf
    n_esi := S.n_esi + 1
    n_src_esi := if sym_id < S.K then S.n_src_esi + 1 else S.n_src_esi }

def codeblockstateAddSym (S : Codeblockstate) (sym_id : ℤ) (payload : List UInt8) :
    Except Fault Codeblockstate := do
  check (payload.length ≤ S.T) .addSymPayloadSize
  if S.n_esi ≥ S.n_esi_max then return S
  else
    let home ← hashHome S sym_id
    match ← probeHash S sym_id S.hash_esi_sz home with
    | none => return S
    | some hent => storeSym S hent sym_id payload

/-- One round of the copying loop. -/
def copySourceSym (S : Codeblockstate) (data_out : Buffer UInt8) (i : ℕ) :
    Except Fault (Buffer UInt8) := do
  let esi ← orElse (S.esi.load? i) .outOfBounds
  if esi ≥ S.K then return data_out
  else
    check (0 ≤ esi) .outOfBounds
    let sym ← orElse (S.syms_buf.read? (i * S.T) S.T) .outOfBounds
    orElse (data_out.write? (esi.toNat * S.T) sym) .outOfBounds

def copySourceSyms (S : Codeblockstate) (data_out : Buffer UInt8) :
    Except Fault (Buffer UInt8) :=
  (List.range S.n_esi).foldlM (copySourceSym S) data_out

/-- The ways out of `codeblockstate_get_data`. -/
inductive DataExit where
  /-- the copying branch, with all source symbols there -/
  | allSource
  /-- the copying branch, with too few symbols to decode -/
  | tooFew
  /-- `RqMemBlocksIncludeCase` or a call under `RUN_NOFAIL` failed -/
  | callFailed
  /-- `RqInterCompile` reported `RQ_ERR_INSUFF_IDS` -/
  | insuffIds
  /-- `RqInterCompile` reported another error -/
  | compileError
  | decoded
deriving DecidableEq, Repr

/-- The value returned. -/
def DataExit.ret : DataExit → Bool
  | .allSource | .decoded => true
  | .tooFew | .callFailed | .insuffIds | .compileError => false

/-- The memory that `codeblockstate_get_data` writes to. -/
structure DataMem (M : Type) where
  codec_mem : RqMemBlocks M
  data_out : Buffer UInt8

variable {M : Type}

namespace DataMem

def setInterWork (m : DataMem M) (c : M) : DataMem M :=
  { m with codec_mem.interWorkMem.contents := c }

def setInterProg (m : DataMem M) (c : M) : DataMem M :=
  { m with codec_mem.interProgMem.contents := c }

def setInterSym (m : DataMem M) (c : Bytes) : DataMem M :=
  { m with codec_mem.interSymMem.contents := c }

def setOutWork (m : DataMem M) (c : M) : DataMem M :=
  { m with codec_mem.outWorkMem.contents := c }

def setOutProg (m : DataMem M) (c : M) : DataMem M :=
  { m with codec_mem.outProgMem.contents := c }

def setDataOut (m : DataMem M) (c : Bytes) : DataMem M :=
  { m with data_out.cell := c }

@[simp] theorem setInterWork_data_out (m : DataMem M) (c : M) :
    (m.setInterWork c).data_out = m.data_out := rfl

@[simp] theorem setInterProg_data_out (m : DataMem M) (c : M) :
    (m.setInterProg c).data_out = m.data_out := rfl

@[simp] theorem setInterSym_data_out (m : DataMem M) (c : Bytes) :
    (m.setInterSym c).data_out = m.data_out := rfl

@[simp] theorem setOutWork_data_out (m : DataMem M) (c : M) :
    (m.setOutWork c).data_out = m.data_out := rfl

@[simp] theorem setOutProg_data_out (m : DataMem M) (c : M) :
    (m.setOutProg c).data_out = m.data_out := rfl

end DataMem

/-- The macro `RUN_NOFAIL`: leave the function when a call returned a negative code. -/
def runNofail (rc : ℤ) (m : DataMem M) : Except (DataExit × DataMem M) (DataMem M) :=
  if rc < 0 then .error (.callFailed, m) else .ok m

/-- The loop of `RqInterAddIds` calls; it stops at the first negative code. -/
def interAddEsis (host : Host M) : M → List ℤ → ℤ × M
  | work, [] => (0, work)
  | work, id :: ids =>
    let r := host.interAddIds work id 1
    if r.1 < 0 then r else interAddEsis host r.2 ids

/-- The ids received so far, in order of arrival. -/
def Codeblockstate.esis (S : Codeblockstate) : List ℤ := S.esi.slice 0 S.n_esi

/-- Generate the intermediate block. -/
def interBlock (host : Host M) (S : Codeblockstate) (m : DataMem M) :
    Except (DataExit × DataMem M) (DataMem M) := do
  let r := host.interInit S.K (S.n_esi - S.K : ℤ)
    m.codec_mem.interWorkMem.contents m.codec_mem.interWorkMem.nSize
  let m ← runNofail r.1 (m.setInterWork r.2)
  let r := interAddEsis host m.codec_mem.interWorkMem.contents S.esis
  let m ← runNofail r.1 (m.setInterWork r.2)
  let r := host.interCompile m.codec_mem.interWorkMem.contents
    m.codec_mem.interProgMem.contents m.codec_mem.interProgMem.nSize
  let m := (m.setInterWork r.2.1).setInterProg r.2.2
  if r.1 = host.errInsuffIds then .error (.insuffIds, m)
  else if r.1 ≠ 0 then .error (.compileError, m)
  else
    let r := host.interExecute m.codec_mem.interProgMem.contents S.T S.syms_buf.cell
      (S.T * S.n_esi_max) m.codec_mem.interSymMem.contents m.codec_mem.interSymMem.nSize
    runNofail r.1 (m.setInterSym r.2)

/-- Reconstruct the source block. -/
def outBlock (host : Host M) (S : Codeblockstate) (data_out_sz : ℕ) (m : DataMem M) :
    Except (DataExit × DataMem M) (DataMem M) := do
  let r := host.outInit S.K m.codec_mem.outWorkMem.contents m.codec_mem.outWorkMem.nSize
  let m ← runNofail r.1 (m.setOutWork r.2)
  let r := host.outAddIds m.codec_mem.outWorkMem.contents 0 S.K
  let m ← runNofail r.1 (m.setOutWork r.2)
  let r := host.outCompile m.codec_mem.outWorkMem.contents
    m.codec_mem.outProgMem.contents m.codec_mem.outProgMem.nSize
  let m ← runNofail r.1 ((m.setOutWork r.2.1).setOutProg r.2.2)
  let r := host.outExecute m.codec_mem.outProgMem.contents S.T
    m.codec_mem.interSymMem.contents m.data_out.cell data_out_sz
  runNofail r.1 (m.setDataOut r.2)

/-- The decoding branch. -/
def decodeBlock (host : Host M) (S : Codeblockstate) (data_out_sz : ℕ) (m : DataMem M) :
    Except (DataExit × DataMem M) (DataMem M) := do
  let r := rqMemBlocksIncludeCase host m.codec_mem S.K (S.n_esi - S.K : ℤ) S.K S.T
  let m ← runNofail r.1 { m with codec_mem := r.2 }
  let m ← interBlock host S m
  outBlock host S data_out_sz m

def codeblockstateGetData (host : Host M) (S : Codeblockstate) (data_out_sz : ℕ)
    (m : DataMem M) : Except Fault (DataExit × DataMem M) := do
  check (data_out_sz ≥ S.K * S.T) .getDataSize
  let data_out ← orElse (m.data_out.write? 0 (List.replicate (S.K * S.T) 0)) .outOfBounds
  let m := { m with data_out }
  if S.n_src_esi ≥ S.K ∨ S.n_esi < S.K then
    let data_out ← copySourceSyms S m.data_out
    return (if S.n_src_esi ≥ S.K then .allSource else .tooFew, { m with data_out })
  else
    match decodeBlock host S data_out_sz m with
    | .ok m => return (.decoded, m)
    | .error (.insuffIds, m) =>
      let data_out ← copySourceSyms S m.data_out
      return (.insuffIds, { m with data_out })
    | .error (exit, m) => return (exit, m)

end RqRoute
