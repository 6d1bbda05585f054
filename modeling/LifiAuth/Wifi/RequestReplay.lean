import LifiAuth.Wifi.RequestAgreement

/-!
# Replayed requests

A request is turned away while its nonce stands in the replay window.  The window holds the
nonces of the sixteen requests accepted last, and a request may be delivered again for up
to a minute, so after sixteen others it is accepted once more.
-/

namespace LifiAuth

open Support

variable (m : Mbedtls) (macKey : Bytes 32)

/-- The calls of `verify_signed_request` by `challenge_server_thread`; what is emitted are
the requests that are accepted. -/
def requestVerifier : Machine RequestWindow VerifyCall SignedRequest where
  step w c :=
    let r := verifySignedRequest m macKey c w
    (r.2, if r.1 then c.request.toList else [])

/-- The nonces of the requests that were accepted. -/
def acceptedNonces (t : List SignedRequest) : List (Bytes reqNonceBytes) :=
  t.filterMap SignedRequest.nonceBytes

/-- The last sixteen of them; the window begins with zeros. -/
def recentNonces (t : List SignedRequest) : List (Bytes reqNonceBytes) :=
  (List.replicate 16 (Bytes.zero reqNonceBytes) ++ acceptedNonces t).drop
    (acceptedNonces t).length

/-- If a genuine request was accepted before, its nonce is one of the last sixteen. -/
def StillHeld (t : List SignedRequest) (_ : RequestWindow) (c : VerifyCall) : Prop :=
  ∀ x ∈ c.genuine m macKey, x.1 ∈ t → x.2 ∈ recentNonces t

variable {m macKey}

/-- The window holds the nonces that were accepted last. -/
def HoldsRecent (t : List SignedRequest) (w : RequestWindow) : Prop :=
  w.ring.contents = recentNonces t

theorem holdsRecent_initial (memory : List.Vector (Bytes 12) 64) :
    HoldsRecent [] (RequestWindow.initial memory) := by
  have hbuf : (RequestWindow.initial memory).ring.buf =
      List.replicate 16 (Bytes.zero reqNonceBytes) :=
    ReplayWindow.buf_ring_init memory (by decide) (by decide) (by decide)
  have hidx : (RequestWindow.initial memory).ring.idx = 0 := rfl
  rw [HoldsRecent, RingBuffer.contents, hbuf, hidx, List.rotate_zero]
  rfl

theorem HoldsRecent.add {t : List SignedRequest} {w : RequestWindow} (h : HoldsRecent t w)
    {r : SignedRequest} {nonce : Bytes reqNonceBytes} (hr : r.nonceBytes = some nonce) :
    HoldsRecent (t ++ [r]) (w.add nonce) := by
  have hnonces : acceptedNonces (t ++ [r]) = acceptedNonces t ++ [nonce] := by
    simp [acceptedNonces, hr]
  have hlen : (acceptedNonces t).length + 1 ≤
      (List.replicate 16 (Bytes.zero reqNonceBytes) ++ acceptedNonces t).length := by
    rw [List.length_append, List.length_replicate]
    omega
  rw [HoldsRecent, ReplayWindow.ring_add, RingBuffer.contents_add, h, recentNonces, recentNonces,
    hnonces, List.tail_drop, List.length_append, List.length_singleton, ← List.append_assoc,
    List.drop_append_of_le_length hlen]

theorem HoldsRecent.seen_iff {t : List SignedRequest} {w : RequestWindow}
    (h : HoldsRecent t w) (nonce : Bytes reqNonceBytes) :
    w.seen nonce = true ↔ nonce ∈ recentNonces t := by
  rw [ReplayWindow.seen_iff, ← RingBuffer.mem_contents, h]

/-- Behind a past without repetitions, a run repeats nothing exactly if it delivers nothing
again that the window does not hold any more. -/
theorem nodup_trace_iff {t : List SignedRequest} {w : RequestWindow} (ht : t.Nodup)
    (h : HoldsRecent t w) (calls : List VerifyCall) :
    (t ++ (requestVerifier m macKey).trace w calls).Nodup ↔
      (requestVerifier m macKey).Admissible (StillHeld m macKey) t w calls := by
  induction calls generalizing t w with
  | nil => simp [Machine.Admissible, ht]
  | cons c calls ih =>
      rw [Machine.trace_cons, Machine.Admissible]
      rcases hgenuine : c.genuine m macKey with _ | ⟨r, nonce⟩
      · have hstep : (requestVerifier m macKey).step w c = (w, []) := by
          simp [requestVerifier, verifySignedRequest_eq, hgenuine]
        have hheld : StillHeld m macKey t w c := by
          simp [StillHeld, hgenuine]
        rw [hstep, List.nil_append, List.append_nil, ih ht h]
        exact (and_iff_right hheld).symm
      · obtain ⟨hrequest, hnonce, -⟩ := genuine_eq_some.mp hgenuine
        have hheld_iff : StillHeld m macKey t w c ↔ (r ∈ t → nonce ∈ recentNonces t) := by
          simp [StillHeld, hgenuine]
        by_cases hseen : nonce ∈ recentNonces t
        · have hstep : (requestVerifier m macKey).step w c = (w, []) := by
            simp [requestVerifier, verifySignedRequest_eq, hgenuine, (h.seen_iff nonce).mpr hseen]
          rw [hstep, List.nil_append, List.append_nil, ih ht h]
          exact (and_iff_right (hheld_iff.mpr fun _ => hseen)).symm
        · have hnot : w.seen nonce = false := by
            rw [← Bool.not_eq_true, h.seen_iff]
            exact hseen
          have hstep : (requestVerifier m macKey).step w c = (w.add nonce, [r]) := by
            simp [requestVerifier, verifySignedRequest_eq, hgenuine, hnot, hrequest]
          rw [hstep, ← List.append_assoc, hheld_iff]
          by_cases hold : r ∈ t
          · refine iff_of_false ?_ fun hok => hseen (hok.1 hold)
            intro hnodup
            have hpair := (List.nodup_append.mp hnodup).1
            exact (List.nodup_append.mp hpair).2.2 r hold r (.head _) rfl
          · have hnodup : (t ++ [r]).Nodup := by
              rw [List.nodup_append]
              refine ⟨ht, List.nodup_singleton r, ?_⟩
              rintro a ha b hb rfl
              exact hold (List.mem_singleton.mp hb ▸ ha)
            rw [ih hnodup (h.add hnonce)]
            exact (and_iff_right fun hmem => absurd hmem hold).symm

/-- No request is accepted twice in a run exactly if none is delivered again with a right
tag and a fresh time stamp after its nonce has left the window. -/
theorem accepted_once_iff (m : Mbedtls) (macKey : Bytes 32)
    (memory : List.Vector (Bytes 12) 64) (calls : List VerifyCall) :
    ((requestVerifier m macKey).trace (RequestWindow.initial memory) calls).Nodup ↔
      (requestVerifier m macKey).Admissible (StillHeld m macKey) []
        (RequestWindow.initial memory) calls := by
  rw [← nodup_trace_iff List.nodup_nil (holdsRecent_initial memory), List.nil_append]

/-- A status query with the nonce `i`, as it is received. -/
def numberedCall (i : ℕ) : VerifyCall :=
  receivedCall
    (ControlRequest.status.text sampleHost
      ⟨1700000000, List.Vector.replicate 12 (UInt8.ofNat i)⟩ sampleKey)
    1700000000 true (Bytes.zero 32)

/-- Seventeen requests of one second, and the first of them again. -/
def replayRun : List VerifyCall :=
  (List.range 17).map (fun i => numberedCall (i + 1)) ++ [numberedCall 1]

theorem first_accepted_again :
    (replayRun.Pairwise fun c c' => c.now ≤ c'.now) ∧
      ¬ ((requestVerifier .transparent sampleKey).trace sampleWindow replayRun).Nodup := by
  refine ⟨?_, ?_⟩
  · decide +kernel
  · decide +kernel

end LifiAuth
