import RqRoute.Verification.Codec.Contract
import RqRoute.Verification.Sender.Emission

/-! # The length of a file on its way into the header

`ftell` reports a `long`, which `get_file_size` cuts to an `int`; `param_deriv` accepts the
sizes of one code block. The headers carry the true length exactly when the cut does not lead
a longer file back into that range. -/

namespace RqRoute

open Checked Memory Chunks Xmit

variable {M : Type}

/-! ## The lengths -/

/-- The bytes that the source datagrams carry. -/
def sourceBytes (sent : List Datagram) : ℕ :=
  ((sent.filter fun d => d.header.ens_id = routeEnsIdSource).map fun d => d.payload.length).sum

/-- Only a file of one code block is sent, with its length in every header, and nothing of it
is missing from the source datagrams; for every other length the function returns false or
stops at the first assertion of `param_deriv`, before anything is sent. -/
structure SentBySize (len : ℕ) (x : Xmit Unit) : Prop where
  sent : x.sent ≠ [] → (1 ≤ len ∧ len ≤ 51200000) ∧ (∀ d ∈ x.sent, d.header.tos.toNat = len) ∧
    sourceBytes x.sent = len
  stops : ¬(1 ≤ len ∧ len ≤ 51200000) → x.sent = [] ∧
    (x.result = .error .failed ∨ x.result = .error (.fault .paramDerivBlocks))

theorem SendsSources.sourceBytes_eq {sent : List Datagram} {K : ℕ} {source : ℕ → Datagram}
    (h : SendsSources sent K source)
    (hsource : ∀ j, (source j).header.ens_id = routeEnsIdSource) :
    sourceBytes sent = ((List.range K).map fun j => (source j).payload.length).sum := by
  obtain ⟨repair, rfl, hrepair⟩ := h
  have hnone : repair.filter (fun d => d.header.ens_id = routeEnsIdSource) = [] := by
    refine List.filter_eq_nil_iff.mpr fun d hd => ?_
    rw [hrepair d hd]
    decide
  have hall : ((List.range K).map source).filter (fun d => d.header.ens_id = routeEnsIdSource) =
      (List.range K).map source := by
    refine List.filter_eq_self.mpr fun d hd => ?_
    obtain ⟨j, -, rfl⟩ := List.mem_map.mp hd
    simpa using hsource j
  rw [sourceBytes, List.filter_append, hnone, hall, List.append_nil, List.map_map]
  rfl

theorem sentBySize_of_small {host : Host M} {content : List UInt8}
    (hsmall : SmallFile content.length) (file_nbr nExtra : ℤ) :
    SentBySize content.length (xmitFile host (some content) file_nbr nExtra) := by
  have hrange : 1 ≤ content.length ∧ content.length ≤ 51200000 := hsmall
  refine ⟨fun hsent => ⟨hrange, fun d hd => (xmitFile_sent hsmall hd).tos hsmall, ?_⟩,
    fun hno => absurd hrange hno⟩
  rw [xmitFile_eq hsmall] at hsent ⊢
  rcases xmitContent_sent host content hsmall.bounds hsmall.symbols.1 file_nbr nExtra with
    ⟨-, hnone⟩ | ⟨sizes, m, -, hsize, hrest, heq⟩
  · exact absurd hnone hsent
  · obtain ⟨m₀, hread, hsrc, hsize₀, -⟩ := readBlock_eq hsmall hsize hrest
    have hsends := xmitBlock_sendsSources host sizes content.length file_nbr nExtra hread
      (by rw [hsize₀]; exact hsize)
    have hpayload : ∀ j ∈ List.range (segSymbols content.length),
        (m₀.srcBlock.slice (1024 * j) (sourcePayloadSize 1024 content.length j)).length =
          (chunk 1024 content j).length := fun j hj => by
      rw [source_payload hsmall hsrc (List.mem_range.mp hj)]
    rw [heq, hsends.sourceBytes_eq fun j => rfl, List.map_congr_left hpayload, sum_length_chunk]
    exact Nat.min_eq_right hsmall.symbols.2.2.2.2

/-- A length whose `int` is out of range stops the transmission before it begins. -/
theorem sentBySize_of_rejected {host : Host M} {content : List UInt8}
    (hout : ¬(1 ≤ toInt content.length ∧ toInt content.length ≤ 51200000)) (file_nbr nExtra : ℤ) :
    SentBySize content.length (xmitFile host (some content) file_nbr nExtra) := by
  have hstop : (xmitFile host (some content) file_nbr nExtra).sent = [] ∧
      ((xmitFile host (some content) file_nbr nExtra).result = .error .failed ∨
        (xmitFile host (some content) file_nbr nExtra).result =
          .error (.fault .paramDerivBlocks)) := by
    simp only [xmitFile]
    by_cases hneg : getFileSize (some content) < 0
    · rw [if_pos hneg]
      exact ⟨rfl, .inl rfl⟩
    · rw [if_neg hneg]
      by_cases hzero : getFileSize (some content) = 0
      · rw [if_pos hzero]
        exact ⟨rfl, .inl rfl⟩
      · have hstopped : (Xmit.lift (paramDeriv (getFileSize (some content)))).result =
            .error (.fault .paramDerivBlocks) := by
          rw [getFileSize, paramDeriv_of_not_small (fitsInt_toInt _) hout]
          rfl
        rw [if_neg hzero, xmitContent]
        exact ⟨(sent_bind_of_error hstopped).1, .inr (sent_bind_of_error hstopped).2⟩
  exact ⟨fun hsent => absurd hstop.1 hsent, fun _ => hstop⟩

/-- A block that the file fills is read as it is. -/
theorem readBlock_of_le {K : ℕ} {m : XmitMem M} (hsize : K * 1024 ≤ m.srcBlock.size)
    (hrest : 1024 * K ≤ m.rest.length) :
    ∃ m', readBlock (oneBlock K) K 0 m = .ok (1024 * K, m') ∧
      m'.srcBlock.size = m.srcBlock.size := by
  have hT : (oneBlock (K : ℤ)).T.toNat = 1024 := rfl
  have hlen : (m.rest.take (1024 * K)).length = 1024 * K := List.length_take_of_le hrest
  have hwrite : m.srcBlock.write? 0 (m.rest.take (1024 * K)) =
      some (m.srcBlock.blit 0 (m.rest.take (1024 * K))) := Buffer.write?_of_le (by omega)
  refine ⟨{ m with
    srcBlock := m.srcBlock.blit 0 (m.rest.take (1024 * K)), rest := m.rest.drop (1024 * K) }, ?_,
    rfl⟩
  rw [readBlock]
  simp only [hT, hlen, hwrite, orElse_some, ok_bind]
  rw [if_neg (Nat.lt_irrefl _)]
  rfl

/-- A longer file whose length is cut back into the range is sent under the cut length. -/
theorem sent_of_wrapped (host : Host M) (content : List UInt8) (hlong : 2 ^ 32 ≤ content.length)
    (hin : 1 ≤ toInt content.length ∧ toInt content.length ≤ 51200000) (file_nbr : ℤ) :
    ∃ d ∈ (xmitFile host (some content) file_nbr 0).sent,
      (d.header.tos.toNat : ℤ) = toInt content.length := by
  obtain ⟨hlow, hhigh, -, -⟩ := symbolCount_bounds hin.1 hin.2
  obtain ⟨K, hK⟩ := Int.eq_ofNat_of_zero_le (by omega : 0 ≤ symbolCount (toInt content.length))
  obtain ⟨n, hn⟩ := Int.eq_ofNat_of_zero_le (by omega : 0 ≤ toInt content.length)
  have heq : xmitFile host (some content) file_nbr 0 = xmitContent host content n file_nbr 0 := by
    rw [xmitFile]
    simp only [getFileSize, Option.getD_some, hn]
    rw [if_neg (by omega), if_neg (by omega)]
  rw [hn] at hin hK hlow hhigh ⊢
  rcases xmitContent_sent host content hin hK.symm file_nbr 0 with ⟨hne, -⟩ |
    ⟨sizes, m, -, hsize, hrest, hsent⟩
  · exact absurd rfl hne
  · obtain ⟨m₀, hread, hsize₀⟩ := readBlock_of_le hsize (by rw [hrest]; omega)
    obtain ⟨repair, hsource, -⟩ := xmitBlock_sendsSources host sizes n file_nbr 0 hread
      (by rw [hsize₀]; exact hsize)
    rw [heq, hsent, hsource]
    refine ⟨_, List.mem_append_left _ (List.mem_map_of_mem (a := 0) (List.mem_range.mpr ?_)), ?_⟩
    · omega
    · rw [tos_xmitHeader _ _ _ _ (by omega)]

/-- The length of a file reaches its datagrams exactly when it is below 2^32, or cut to a value
that is rejected. -/
theorem sentBySize_iff (host : Host M) (content : List UInt8) :
    (∀ file_nbr nExtra,
      SentBySize content.length (xmitFile host (some content) file_nbr nExtra)) ↔
      content.length < 2 ^ 32 ∨
        ¬(1 ≤ content.length % 2 ^ 32 ∧ content.length % 2 ^ 32 ≤ 51200000) := by
  have hwrap : (1 ≤ toInt content.length ∧ toInt content.length ≤ 51200000) ↔
      1 ≤ content.length % 2 ^ 32 ∧ content.length % 2 ^ 32 ≤ 51200000 := by
    unfold toInt
    omega
  rw [← hwrap]
  constructor
  · intro h
    by_contra hno
    push Not at hno
    obtain ⟨d, hd, -⟩ := sent_of_wrapped host content hno.1 hno.2 0
    have hrange := ((h 0 0).sent (List.ne_nil_of_mem hd)).1
    omega
  · intro h file_nbr nExtra
    by_cases hin : 1 ≤ toInt content.length ∧ toInt content.length ≤ 51200000
    · have hshort := h.resolve_right (not_not.mpr hin)
      refine sentBySize_of_small ?_ file_nbr nExtra
      unfold toInt at hin
      unfold SmallFile
      omega
    · exact sentBySize_of_rejected hin file_nbr nExtra

/-- One byte more than a 32-bit length can tell. -/
def wrappedFile : List UInt8 := List.replicate 4294967297 0

theorem length_wrappedFile : wrappedFile.length = 4294967297 := List.length_replicate

/-- It is sent as a file of one byte. -/
theorem wrappedFile_is_sent :
    (∃ d ∈ (xmitFile refusingHost (some wrappedFile) 0 0).sent, d.header.tos.toNat = 1) ∧
      ¬SentBySize 4294967297 (xmitFile refusingHost (some wrappedFile) 0 0) := by
  obtain ⟨d, hd, htos⟩ := sent_of_wrapped refusingHost wrappedFile
    (by rw [length_wrappedFile]; decide) (by rw [length_wrappedFile]; decide) 0
  have hone : toInt wrappedFile.length = 1 := by
    rw [length_wrappedFile]
    rfl
  refine ⟨⟨d, hd, by omega⟩, fun hsize => ?_⟩
  have hrange := (hsize.sent (List.ne_nil_of_mem hd)).1
  omega

end RqRoute
