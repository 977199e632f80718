import RqRoute.Library.Chunks
import RqRoute.Model.RqMemBlocks

/-! # The contract of the codec

What the program relies on of `rq_api.h`: an erasure code whose first symbols are those of
the source block, and calls that, when they succeed, carry it out. -/

namespace RqRoute

open Memory

variable {M : Type}

/-- `n` bytes from offset `offs` on. -/
def bytesAt (b : Bytes) (offs n : ℕ) : List UInt8 := (List.range n).map fun i => b (offs + i)

/-- The ids `lo`, …, `lo + n - 1`. -/
def idRange (lo n : ℤ) : List ℤ := (List.range n.toNat).map fun i : ℕ => lo + i

/-- The memory holds the symbols with these ids of a source block, one after the other. -/
def HoldsSymbols (encode : ℕ → ℕ → (ℕ → List UInt8) → ℤ → List UInt8) (K T : ℕ)
    (src : ℕ → List UInt8) (ids : List ℤ) (b : Bytes) : Prop :=
  ∀ i (h : i < ids.length), bytesAt b (T * i) T = encode K T src ids[i]

/-- A codec with the meaning of its memory. `encode K T src id` is symbol `id` of the block
of the `K` source symbols `src`, of `T` bytes each; `InterWork`, `InterProg`, `OutWork` and
`OutProg` say which ids a work area or a program is for, and `Inter` which source block an
intermediate block belongs to. Nothing is promised of a call that fails. -/
structure CodecContract (api : RqApi M) where
  encode : (K T : ℕ) → (src : ℕ → List UInt8) → (id : ℤ) → List UInt8
  InterWork : M → ℕ → List ℤ → Prop
  InterProg : M → ℕ → List ℤ → Prop
  OutWork : M → ℕ → List ℤ → Prop
  OutProg : M → ℕ → List ℤ → Prop
  Inter : Bytes → (K T : ℕ) → (ℕ → List UInt8) → Prop
  systematic : ∀ {K T src i}, i < K → encode K T src i = src i
  interInit : ∀ {K : ℕ} {nExtra mem sz}, 0 ≤ (api.interInit K nExtra mem sz).1 →
    InterWork (api.interInit K nExtra mem sz).2 K []
  interAddIds : ∀ {K ids work lo n}, InterWork work K ids → 0 ≤ (api.interAddIds work lo n).1 →
    InterWork (api.interAddIds work lo n).2 K (ids ++ idRange lo n)
  interCompile : ∀ {K ids work prog sz}, InterWork work K ids →
    0 ≤ (api.interCompile work prog sz).1 → InterProg (api.interCompile work prog sz).2.2 K ids
  interExecute : ∀ {K T src ids prog syms sz out outsz}, InterProg prog K ids →
    (∀ i < K, (src i).length = T) → HoldsSymbols encode K T src ids syms →
    0 ≤ (api.interExecute prog T syms sz out outsz).1 →
    Inter (api.interExecute prog T syms sz out outsz).2 K T src
  outInit : ∀ {K : ℕ} {mem sz}, 0 ≤ (api.outInit K mem sz).1 →
    OutWork (api.outInit K mem sz).2 K []
  outAddIds : ∀ {K ids work lo n}, OutWork work K ids → 0 ≤ (api.outAddIds work lo n).1 →
    OutWork (api.outAddIds work lo n).2 K (ids ++ idRange lo n)
  outCompile : ∀ {K ids work prog sz}, OutWork work K ids →
    0 ≤ (api.outCompile work prog sz).1 → OutProg (api.outCompile work prog sz).2.2 K ids
  outExecute : ∀ {K T src ids prog inter out outsz}, OutProg prog K ids → Inter inter K T src →
    0 ≤ (api.outExecute prog T inter out outsz).1 →
    HoldsSymbols encode K T src ids (api.outExecute prog T inter out outsz).2

@[simp] theorem length_idRange (lo n : ℤ) : (idRange lo n).length = n.toNat := by
  simp [idRange]

theorem getElem_idRange {lo n : ℤ} {i : ℕ} (h : i < (idRange lo n).length) :
    (idRange lo n)[i] = lo + i := by
  simp [idRange]

theorem idRange_one (id : ℤ) : idRange id 1 = [id] := by simp [idRange]

/-! ## A codec that refuses -/

/-- A codec whose calls all fail, for segments that need none. -/
def refusingHost : Host Unit where
  errInsuffIds := -2
  interGetMemSizes _ _ := (-1, 0, 0, 0)
  outGetMemSizes _ := (-1, 0, 0)
  interInit _ _ mem _ := (-1, mem)
  interAddIds mem _ _ := (-1, mem)
  interCompile work prog _ := (-1, work, prog)
  interExecute _ _ _ _ out _ := (-1, out)
  outInit _ mem _ := (-1, mem)
  outAddIds mem _ _ := (-1, mem)
  outCompile work prog _ := (-1, work, prog)
  outExecute _ _ _ out _ := (-1, out)
  freshWork := ()
  freshByte _ := 0
  freshInt _ := 0

end RqRoute
