import RqRoute.Verification.Codec.Contract

/-! # A codec without memory

What the receiver relies on when it lends the same work memory to one segment after the
other. -/

namespace RqRoute

open Memory

variable {M : Type}

/-- The results of the codec depend on `K`, on the ids and on the symbols that are passed:
not on what its work memory held before, nor on how much more of it there is than it asks
for. The predicates say that a memory is what the calls with these arguments made of it. -/
structure StaleFree (api : RqApi M) where
  InterWork : (K nExtra : ℤ) → (ids : List ℤ) → M → Prop
  InterProg : (K nExtra : ℤ) → (ids : List ℤ) → M → Prop
  Inter : (K nExtra : ℤ) → (ids : List ℤ) → (T : ℕ) → (syms : List UInt8) → Bytes → Prop
  OutWork : (K nOut : ℤ) → (ids : List ℤ) → M → Prop
  OutProg : (K nOut : ℤ) → (ids : List ℤ) → M → Prop
  interInit : ∀ K nExtra, ∃ rc, ∀ mem sz, (api.interGetMemSizes K nExtra).2.1 ≤ sz →
    (api.interInit K nExtra mem sz).1 = rc ∧
      (0 ≤ rc → InterWork K nExtra [] (api.interInit K nExtra mem sz).2)
  interAddIds : ∀ K nExtra ids lo n, ∃ rc, ∀ work, InterWork K nExtra ids work →
    (api.interAddIds work lo n).1 = rc ∧
      (0 ≤ rc → InterWork K nExtra (ids ++ idRange lo n) (api.interAddIds work lo n).2)
  interCompile : ∀ K nExtra ids, ∃ rc, ∀ work prog sz, InterWork K nExtra ids work →
    (api.interGetMemSizes K nExtra).2.2.1 ≤ sz →
    (api.interCompile work prog sz).1 = rc ∧
      (0 ≤ rc → InterProg K nExtra ids (api.interCompile work prog sz).2.2)
  interExecute : ∀ K nExtra ids T syms, ∃ rc, ∀ prog b bsz out outsz,
    InterProg K nExtra ids prog → bytesAt b 0 (T * ids.length) = syms → T * ids.length ≤ bsz →
    sizeMul T (api.interGetMemSizes K nExtra).2.2.2 ≤ outsz →
    (api.interExecute prog T b bsz out outsz).1 = rc ∧
      (0 ≤ rc → Inter K nExtra ids T syms (api.interExecute prog T b bsz out outsz).2)
  outInit : ∀ K nOut, ∃ rc, ∀ mem sz, (api.outGetMemSizes nOut).2.1 ≤ sz →
    (api.outInit K mem sz).1 = rc ∧ (0 ≤ rc → OutWork K nOut [] (api.outInit K mem sz).2)
  outAddIds : ∀ K nOut ids lo n, ∃ rc, ∀ work, OutWork K nOut ids work →
    (api.outAddIds work lo n).1 = rc ∧
      (0 ≤ rc → OutWork K nOut (ids ++ idRange lo n) (api.outAddIds work lo n).2)
  outCompile : ∀ K nOut ids, ∃ rc, ∀ work prog sz, OutWork K nOut ids work →
    (api.outGetMemSizes nOut).2.2 ≤ sz →
    (api.outCompile work prog sz).1 = rc ∧
      (0 ≤ rc → OutProg K nOut ids (api.outCompile work prog sz).2.2)
  /-- the output area, which is not work memory, may matter as far as it is written to -/
  outExecute : ∀ K nExtra ids T syms nOut outIds old, ∃ rc new, ∀ prog inter out outsz,
    OutProg K nOut outIds prog → Inter K nExtra ids T syms inter →
    bytesAt out 0 (T * outIds.length) = old → T * outIds.length ≤ outsz →
    (api.outExecute prog T inter out outsz).1 = rc ∧
      bytesAt (api.outExecute prog T inter out outsz).2 0 (T * outIds.length) = new

end RqRoute
