import AetherLink.Core.Abort
import AetherLink.Core.Transfer
import AetherLink.Proofs.Offer
import AetherLink.Proofs.Paths

set_option autoImplicit false

/-! # Which refusals the peer is told of

`run` refuses an offer in the middle of a loop, by `abort` and a return or by `?` alone. The four
refusals of the first kind send a reason; it goes out if it fits a frame, which it does unless it
quotes a path of millions of bytes. The two of the second kind, over the chunk size and over the
length of the hash list, send nothing. -/

namespace AetherLink

/-- What has to be so of an entry that is refused for its contents if the peer is to be told: an
    unsafe path is short enough to be quoted, and an entry with a path that will do has a chunk size
    that is one and, unless it is oversized, a digest for each chunk. -/
structure FileEntry.Announced (escaped : Char → Bool) (config : Config) (chunkSize : UInt32)
    (seenPaths : List String) (entry : FileEntry) : Prop where
  path : ∀ e, sanitizeRelativePath entry.relativePath = .error e →
    textLength (debugStr escaped entry.relativePath) ≤ 8388562
  contents : ∀ s, sanitizeRelativePath entry.relativePath = .ok s → s ∉ seenPaths →
    ∃ layout, ChunkLayout.new entry.sizeBytes chunkSize = .ok layout ∧
      (config.maxFileBytes < entry.sizeBytes ∨ entry.chunkHashes.length = layout.count * 32)

/-! ## Reasons that fit -/

/-- The words of the gate, and the paths it lets through, are short. -/
theorem textLength_sanitized_le {raw s : String} (h : sanitizeRelativePath raw = .ok s) :
    textLength s ≤ 1024 := by
  obtain ⟨parts, hplain, -, hkept, rfl⟩ := sanitizeRelativePath_eq_ok_iff.1 h
  exact (hkept.safePath hplain).short

theorem abortFits_protocol (escaped : Char → Bool) {message : String}
    (h : textLength message ≤ 8388598) : (Error.protocol message).abortFits escaped = true :=
  decide_eq_true (abortLength_le_iff.2 h)

theorem sanitizeComponents_error {cs : List (List Char)} {why : String}
    (h : sanitizeComponents cs = .error why) : textLength why ≤ 64 := by
  induction cs with
  | nil => cases h
  | cons c cs ih =>
      rw [sanitizeComponents] at h
      split at h
      · exact ih h
      · repeat' split at h
        all_goals cases h
        all_goals first
          | decide +kernel
          | next hrest => exact ih hrest

/-- What the gate says of a path it refuses; of one that is too long it says that. -/
theorem sanitizeRelativePath_error {raw : String} {e : Proto.Error}
    (h : sanitizeRelativePath raw = .error e) :
    ∃ why, e = .unsafePath raw why ∧ textLength why ≤ 64 ∧
      (1024 < textLength raw → why = "exceeds maximum length") := by
  unfold sanitizeRelativePath at h
  split at h
  · next why hwhy =>
      refine ⟨why, (Except.error.inj h).symm, ?_, fun hlong => ?_⟩
      · unfold sanitizeParts at hwhy
        repeat' split at hwhy
        all_goals cases hwhy
        all_goals first
          | decide +kernel
          | next hrest => exact sanitizeComponents_error hrest
      · unfold sanitizeParts at hwhy
        rw [if_neg (by rintro hnil; rw [textLength, hnil] at hlong; exact absurd hlong (by decide)),
          if_pos (show MAX_PATH_LEN < (Text.encode raw.toList).length from hlong)] at hwhy
        exact (Except.error.inj hwhy).symm
  · cases h

/-- The reason for an unsafe path fits as long as the path does, quoted. -/
theorem abortFits_unsafePath_iff (escaped : Char → Bool) {raw : String} {e : Proto.Error}
    (h : sanitizeRelativePath raw = .error e) :
    (Error.wire e).abortFits escaped = true ↔ textLength (debugStr escaped raw) ≤ 8388562 := by
  obtain ⟨why, rfl, hwhy, hlong⟩ := sanitizeRelativePath_error h
  have hlength : textLength (Error.reason escaped (.wire (.unsafePath raw why)))
      = 12 + textLength (debugStr escaped raw) + 2 + textLength why := by
    rw [Error.reason, textLength_append, textLength_append, textLength_append]
    rfl
  rw [Error.abortFits, decide_eq_true_eq, abortLength_le_iff, hlength]
  by_cases hraw : 1024 < textLength raw
  · rw [hlong hraw]
    have hwords : textLength "exceeds maximum length" = 22 := by decide +kernel
    omega
  · have hquoted := textLength_debugStr_le escaped raw
    omega

/-! ## Entries -/

/-- **Which refused entries are announced**: those `run` calls `abort` for, if the reason fits. -/
theorem checkEntry_announced_iff {blake3 : Blake3} {config : Config} {outputDir : FilePath}
    {chunkSize : UInt32} {seen : List String} {entry : FileEntry} {told : Bool} {e : Error}
    (escaped : Char → Bool)
    (h : checkEntry blake3 config outputDir chunkSize seen entry = .error (told, e)) :
    (told = true ∧ e.abortFits escaped = true) ↔
      entry.Announced escaped config chunkSize seen := by
  unfold checkEntry at h
  split at h
  · next err herr =>
      obtain ⟨rfl, rfl⟩ := Prod.mk.inj (Except.error.inj h)
      rw [abortFits_unsafePath_iff escaped herr]
      refine ⟨fun hfits => ⟨fun _ _ => hfits.2, fun s hs => ?_⟩, fun ha => ⟨rfl, ha.path err herr⟩⟩
      rw [herr] at hs
      cases hs
  · next safePath hsafe =>
      have hpath := textLength_sanitized_le hsafe
      have hno : ∀ e, sanitizeRelativePath entry.relativePath = .error e →
          textLength (debugStr escaped entry.relativePath) ≤ 8388562 := fun e he => by
        rw [hsafe] at he
        cases he
      split at h
      · next hseen =>
          obtain ⟨rfl, rfl⟩ := Prod.mk.inj (Except.error.inj h)
          refine iff_of_true ⟨rfl, abortFits_protocol escaped ?_⟩ ⟨hno, fun s hs hnew => ?_⟩
          · have hwords : textLength "manifest resolves two entries to " ≤ 64 := by decide +kernel
            rw [textLength_append]
            omega
          · rw [hsafe] at hs
            exact absurd (Except.ok.inj hs ▸ hseen) hnew
      · next hnew =>
          split at h
          · next err hlayout =>
              obtain ⟨rfl, rfl⟩ := Prod.mk.inj (Except.error.inj h)
              refine iff_of_false (fun hand => Bool.false_ne_true hand.1) fun ha => ?_
              obtain ⟨layout, hok, -⟩ := ha.contents safePath hsafe hnew
              rw [hlayout] at hok
              cases hok
          · next layout hlayout =>
              split at h
              · next hsize =>
                  obtain ⟨rfl, rfl⟩ := Prod.mk.inj (Except.error.inj h)
                  refine iff_of_true ⟨rfl, abortFits_protocol escaped ?_⟩
                    ⟨hno, fun s hs _ => ⟨layout, hlayout, .inl hsize⟩⟩
                  have hwords : textLength " is " ≤ 64 ∧
                      textLength " bytes, above the accepted maximum" ≤ 64 := by decide +kernel
                  have hnumber := textLength_repr_le entry.sizeBytes.toNat_lt
                  rw [textLength_append, textLength_append, textLength_append]
                  omega
              · next hsize =>
                  split at h
                  · next err hhashes =>
                      obtain ⟨rfl, rfl⟩ := Prod.mk.inj (Except.error.inj h)
                      refine iff_of_false (fun hand => Bool.false_ne_true hand.1) fun ha => ?_
                      obtain ⟨layout', hok, hor⟩ := ha.contents safePath hsafe hnew
                      obtain rfl := Except.ok.inj (hlayout.symm.trans hok)
                      rw [splitHashes, if_neg (not_not.2 (hor.resolve_left hsize))] at hhashes
                      cases hhashes
                  · next hashes hhashes =>
                      simp only at h
                      split at h
                      · obtain ⟨rfl, rfl⟩ := Prod.mk.inj (Except.error.inj h)
                        refine iff_of_true ⟨rfl, abortFits_protocol escaped ?_⟩
                          ⟨hno, fun s hs _ => ⟨layout, hlayout, .inr (splitHashes_length hhashes)⟩⟩
                        have hwords :
                            textLength "root hash does not match the chunk hashes for " ≤ 64 := by
                          decide +kernel
                        rw [textLength_append]
                        omega
                      · cases h

/-! ## The run -/

/-- A refused `Hello` is announced. -/
theorem onHello_announced (escaped : Char → Bool) {config : Config} {version streamCount : UInt32}
    {e : Error} {messages : List Body}
    (h : Receiver.onHello config (e.abortFits escaped) (.hello version streamCount)
      = .refused messages e) : ∃ reason, messages = [.abort reason] := by
  have htold : ∀ reason, Receiver.refused (Receiver.abort (e.abortFits escaped) reason)
      (.protocol reason) = .refused messages e → textLength reason ≤ 8388598 →
      ∃ reason, messages = [.abort reason] := by
    intro reason heq hshort
    obtain ⟨rfl, rfl⟩ := Receiver.refused.inj heq
    rw [abortFits_protocol escaped hshort]
    exact ⟨reason, rfl⟩
  have hwords : textLength "peer speaks protocol v" ≤ 64 ∧ textLength "peer requested " ≤ 64 ∧
      textLength " streams, outside the accepted range 1..=" ≤ 64 := by decide +kernel
  unfold Receiver.onHello at h
  simp only at h
  split at h
  · refine htold _ h ?_
    have hversion := textLength_repr_le (Nat.lt_trans version.toNat_lt (by decide))
    rw [textLength_append]
    omega
  · split at h
    · refine htold _ h ?_
      have hcount := textLength_repr_le (Nat.lt_trans streamCount.toNat_lt (by decide))
      have hmax := textLength_repr_le (Nat.lt_trans config.maxStreams.toNat_lt (by decide))
      rw [textLength_append, textLength_append, textLength_append]
      omega
    · cases h

/-- The loop ends at the first entry that is refused. -/
theorem offerLoop_refused {blake3 : Blake3} {config : Config} {outputDir : FilePath}
    {chunkSize : UInt32} {st st' : OfferState} {pre post : List (FileEntry × EntryIo)}
    {x : FileEntry × EntryIo} {told : Bool} {e : Error}
    (hpre : offerLoop blake3 config outputDir chunkSize st pre = .ok st')
    (hx : checkEntry blake3 config outputDir chunkSize st'.seenPaths x.1 = .error (told, e)) :
    offerLoop blake3 config outputDir chunkSize st (pre ++ x :: post)
      = .error { disk := st'.disk, abort := told, error := e } := by
  have hentry : offerEntry blake3 config outputDir chunkSize st' x
      = .error { disk := st'.disk, abort := told, error := e } := by
    rw [offerEntry, hx]
  rw [offerLoop_append, hpre]
  show offerLoop blake3 config outputDir chunkSize st' (x :: post) = _
  rw [offerLoop, List.foldlM_cons, hentry]
  rfl

/-- An `Abort` on the control stream is what a sender that waits for `Accept` returns with. -/
theorem peerAborted_of_announced {c : Parties} {t : Transfer} {reason : String} {e : Error}
    (hreceiver : t.receiver = .refused [.abort reason] e) (hread : t.read = 0)
    (hsender : t.sender.main = .awaitingAccept) :
    ∃ t', t.step c .reads = some t' ∧
      t'.sender.main = .returned (.error (.peerAborted reason)) := by
  refine ⟨{ t with
    sender := { t.sender with main := .returned (.error (.peerAborted reason)) }
    read := t.read + 1 }, ?_, rfl⟩
  simp only [Transfer.step, hreceiver, Receiver.messages, hread, List.getElem?_cons_zero,
    Sender.mainStep, hsender, Sender.onReply, Option.map_some]

/-- **Which refusals of contents are announced.** On a control connection that works, every refused
    `Hello` is answered by one `Abort`. A refused offer is if and only if its first refused entry,
    wherever it stands, is refused for its path, its size or its root, and not for the chunk size or
    the length of its hash list, and the path, quoted, fits a frame. A sender that waits for `Accept`
    then returns `PeerAborted`. -/
theorem content_refusal_announced_iff (c : Parties) (escaped : Char → Bool) :
    (∀ version streamCount messages e,
      Receiver.onHello c.receiverConfig (e.abortFits escaped) (.hello version streamCount)
        = .refused messages e → ∃ reason, messages = [.abort reason]) ∧
    (∀ streamCount o ios pre x post st told e, o.files.zip ios = pre ++ x :: post →
      offerLoop c.blake3 c.receiverConfig c.outputDir o.chunkSize (.init c.disk) pre = .ok st →
      checkEntry c.blake3 c.receiverConfig c.outputDir o.chunkSize st.seenPaths x.1
        = .error (told, e) →
      ∃ messages,
        Receiver.onOffer c streamCount ios (e.abortFits escaped) (.offer o) = .refused messages e ∧
        ((∃ reason, messages = [.abort reason]) ↔
          x.1.Announced escaped c.receiverConfig o.chunkSize st.seenPaths)) ∧
    ∀ t reason e, t.receiver = .refused [.abort reason] e → t.read = 0 →
      t.sender.main = .awaitingAccept →
      ∃ t', Transfer.step c t .reads = some t' ∧
        t'.sender.main = .returned (.error (.peerAborted reason)) := by
  refine ⟨fun _ _ _ _ h => onHello_announced escaped h, ?_, fun t reason e hreceiver hread hsender =>
    peerAborted_of_announced hreceiver hread hsender⟩
  intro streamCount o ios pre x post st told e hsplit hpre hx
  have hloop : offerLoop c.blake3 c.receiverConfig c.outputDir o.chunkSize (.init c.disk)
      (o.files.zip ios) = .error { disk := st.disk, abort := told, error := e } := by
    rw [hsplit]
    exact offerLoop_refused hpre hx
  rw [← checkEntry_announced_iff escaped hx]
  cases told with
  | false =>
      refine ⟨[], by simp [Receiver.onOffer, hloop], iff_of_false ?_ fun h => ?_⟩
      · rintro ⟨reason, hreason⟩
        cases hreason
      · exact Bool.false_ne_true h.1
  | true =>
      refine ⟨Receiver.abort (e.abortFits escaped) (e.reason c.escaped),
        by simp [Receiver.onOffer, hloop], ?_⟩
      rw [Receiver.abort]
      by_cases hfits : e.abortFits escaped = true
      · rw [if_pos hfits]
        exact iff_of_true ⟨_, rfl⟩ ⟨rfl, hfits⟩
      · rw [if_neg hfits]
        refine iff_of_false ?_ fun h => hfits h.2
        rintro ⟨reason, hreason⟩
        cases hreason

/-- A receiver with an empty disk. -/
def emptyReceiver : Parties :=
  { blake3 := shortFileHash, senderConfig := plainConfig, receiverConfig := plainConfig, files := [],
    files_length_lt := UInt64.toNat_lt 0, outputDir := ["out"], disk := .empty }

/-- An entry whose path leaves the output directory is refused with a word to the peer. -/
theorem content_refusal_announced_iff_traversal :
    ∃ messages e, Receiver.onOffer emptyReceiver 1 [allCallsSucceed] true
        (.offer { chunkSize := 65536, files := [oneByteEntry 0 "../b" rootB digestB] })
      = .refused messages e ∧ ∃ reason, messages = [.abort reason] := by
  have hwhy : sanitizeRelativePath "../b"
      = .error (.unsafePath "../b" "contains a parent-directory traversal") := by decide +kernel
  have hcheck : checkEntry shortFileHash plainConfig ["out"] 65536 []
      (oneByteEntry 0 "../b" rootB digestB)
      = .error (true, .wire (.unsafePath "../b" "contains a parent-directory traversal")) := by
    rw [checkEntry, oneByteEntry, hwhy]
  have hann : (oneByteEntry 0 "../b" rootB digestB).Announced (fun _ => false) plainConfig 65536
      [] :=
    ⟨fun _ _ => by decide +kernel, fun s hs => by
      rw [oneByteEntry, hwhy] at hs
      cases hs⟩
  have hfits := (abortFits_unsafePath_iff (fun _ => false) hwhy).2 (by decide +kernel)
  obtain ⟨messages, hrun, hiff⟩ := (content_refusal_announced_iff emptyReceiver fun _ => false).2.1 1
    { chunkSize := 65536, files := [oneByteEntry 0 "../b" rootB digestB] } [allCallsSucceed] []
    (oneByteEntry 0 "../b" rootB digestB, allCallsSucceed) [] (.init .empty) _ _ rfl rfl hcheck
  rw [hfits] at hrun
  exact ⟨messages, _, hrun, hiff.2 hann⟩

/-- An offer with a chunk size of 0 is refused without a word. -/
theorem bad_chunk_size_not_announced :
    Receiver.onOffer emptyReceiver 1 [allCallsSucceed] true
        (.offer { chunkSize := 0, files := [oneByteEntry 0 "a" rootA digestA] })
      = .refused [] (.wire (.invalidChunkSize 0)) := by
  have hcheck : checkEntry shortFileHash plainConfig ["out"] 0 [] (oneByteEntry 0 "a" rootA digestA)
      = .error (false, .wire (.invalidChunkSize 0)) := by
    have hsafe : sanitizeRelativePath "a" = .ok "a" := by decide +kernel
    rw [checkEntry, oneByteEntry, hsafe]
    rfl
  have hloop : offerLoop shortFileHash plainConfig ["out"] 0 (.init .empty)
      [(oneByteEntry 0 "a" rootA digestA, allCallsSucceed)]
      = .error { disk := .empty, abort := false, error := .wire (.invalidChunkSize 0) } := by
    have hstart : offerLoop shortFileHash plainConfig ["out"] 0 (.init .empty) []
        = .ok (.init .empty) := rfl
    exact offerLoop_refused hstart hcheck
  simp only [Receiver.onOffer, emptyReceiver, List.zip_cons_cons, List.zip_nil_right, hloop,
    Bool.false_eq_true, if_false]

end AetherLink
