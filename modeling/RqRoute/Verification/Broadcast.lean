import RqRoute.Verification.EndToEnd
import RqRoute.Verification.Sender.Interactive

/-! # From the sender at work to the player

The sender runs with its clock and its console, drops packets at random, and the network loses
some more without changing their order. -/

namespace RqRoute

open Memory Text Transition

variable {M : Type}

section
variable {sender host : Host M} {files : Str → Option (List UInt8)} {dirname text : Str}
  {contents : List (List UInt8)} {strtod : Str → ℚ} {mul : ℚ → ℚ → ℚ} {fresh : ℕ → Char}
  {fnam_buf : Buffer Char} {t0 : Timespec} {settings : Settings} {clock : ℚ} {t : List SendEntry}
  {s : SendLoop}

/-- What a run has offered is a beginning of the stream of the playlist; all of it, with every
file transmitted, when the sender has got to the end. -/
theorem offered_le
    (hbuf : InMemory.directoryPath fresh dirname lenPbuf InMemory.listM3u8 = .ok fnam_buf)
    (htext : Playlist text) (hshort : ∀ r ∈ pieces 39 text, r.length < 39)
    (hfiles : Lists files (cstr dirname) text contents) (hlen : contents.length ≤ 65536)
    (h : Run (SendLoop.Step sender files strtod mul)
      (.init dirname fnam_buf text t0 settings clock) t s) :
    ∃ nExtra : ℕ → ℤ, offered t <+: transmission sender contents nExtra ∧
      (s.phase = .stopped true → offered t = transmission sender contents nExtra ∧
        AllTransmitted sender contents nExtra) := by
  have hcount : (extras mul files t).length ≤ (playlistNames text).length :=
    extras_length_le htext h
  rw [hfiles.length_eq] at hcount
  let nExtra : ℤ → ℤ := fun k => (extras mul files t)[k.toNat]?.getD 0
  have hextra : ∀ (i : ℕ) n, (extras mul files t)[i]? = some n → nExtra i = n :=
    fun i n hi => by simp [nExtra, hi]
  obtain ⟨x, hx, hoffered, hstopped, -⟩ := interactive_transmission hbuf
    htext.toListing.noNul_text (InMemory.narrow_of_forall hshort) h (by omega) hextra
  obtain ⟨hsent, hall⟩ := sendSegments_sent htext hfiles hlen hx
  refine ⟨fun f => nExtra f, hoffered.trans hsent, fun hstop => ?_⟩
  obtain ⟨heq, hresult⟩ := hstopped true hstop
  rw [heq]
  exact hall (hresult.mpr rfl)

end

end RqRoute
