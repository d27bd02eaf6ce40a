import AetherLink.Proofs.Safety
import AetherLink.Proofs.Stream

set_option autoImplicit false

/-! # The streams a worker accepts

`Worker.Accepts w bytes` says what the worker in state `w` makes of the bytes it has still to read.
No step of the worker changes the answer (`Worker.accepts_step`), so it is given at the start, where
it is the grammar of a stream, and can be read off at the end, where it is the result. -/

namespace AetherLink

/-! ## Whole frames in a byte string -/

theorem Frame.header_le_length (f : Frame) : HEADER_LEN ≤ f.bytes.length := by
  rw [bytes, List.length_append, FrameHeader.length_encode]
  exact Nat.le_add_right _ _

/-- A byte string that begins with a frame decodes to its header. -/
theorem Frame.decode_bytes (f : Frame) (rest : List UInt8) :
    FrameHeader.decode ((f.bytes ++ rest).take HEADER_LEN) = .ok f.header := by
  rw [bytes, List.append_assoc, List.take_left' (FrameHeader.length_encode _)]
  exact FrameHeader.decode_encode f.valid

theorem Frame.drop_bytes (f : Frame) (rest : List UInt8) :
    (f.bytes ++ rest).drop HEADER_LEN = f.payload ++ rest := by
  rw [bytes, List.append_assoc, List.drop_left' (FrameHeader.length_encode _)]

/-- A header that decodes, with as many bytes behind it as it announces, is a whole frame. -/
theorem exists_frame {bytes : List UInt8} {h : FrameHeader}
    (hdec : FrameHeader.decode (bytes.take HEADER_LEN) = .ok h)
    (hlen : h.length.toNat ≤ (bytes.drop HEADER_LEN).length) :
    ∃ f : Frame, f.header = h ∧ f.payload = (bytes.drop HEADER_LEN).take h.length.toNat ∧
      bytes = f.bytes ++ (bytes.drop HEADER_LEN).drop h.length.toNat := by
  obtain ⟨-, hvalid, htake⟩ := FrameHeader.decode_ok hdec
  rw [List.take_take, Nat.min_self] at htake
  refine ⟨⟨h, (bytes.drop HEADER_LEN).take h.length.toNat, hvalid, ?_⟩, rfl, rfl, ?_⟩
  · rw [List.length_take, Nat.min_eq_left hlen]
  · rw [Frame.bytes, ← htake, List.append_assoc, List.take_append_drop, List.take_append_drop]

namespace Files

variable (blake3 : Blake3) (files : Files)

/-- The bytes are frames the worker takes, and then less than a header. -/
def Parses (current : Option Current) (buf bytes : List UInt8) : Prop :=
  ∃ (fs : List Frame) (part : List UInt8), bytes = fs.flatMap Frame.bytes ++ part ∧
    part.length < HEADER_LEN ∧ files.Takes blake3 current buf fs

/-- What comes after the payload of a frame, with this much of the chunk in the buffer. -/
def Fills (c : Current) (buf bytes : List UInt8) : Prop :=
  if buf.length = c.expectedLen then
    files.Commits blake3 c buf ∧ files.Parses blake3 none [] bytes
  else files.Parses blake3 (some c) buf bytes

variable {blake3 : Blake3} {files : Files} {current : Option Current} {buf bytes : List UInt8}

/-- Less than a header is an end of the stream. -/
theorem parses_of_short (h : bytes.length < HEADER_LEN) :
    files.Parses blake3 current buf bytes ↔ current = none := by
  constructor
  · rintro ⟨fs, part, heq, -, htakes⟩
    cases fs with
    | nil => exact htakes
    | cons f fs =>
        rw [heq, List.flatMap_cons, List.append_assoc, List.length_append] at h
        have hle := f.header_le_length
        omega
  · intro hcur
    exact ⟨[], bytes, rfl, h, hcur⟩

/-- Otherwise there is a first frame. -/
theorem Parses.cons {fs : List Frame} {part : List UInt8} (h : HEADER_LEN ≤ bytes.length)
    (heq : bytes = fs.flatMap Frame.bytes ++ part) (hpart : part.length < HEADER_LEN) :
    ∃ f gs, fs = f :: gs ∧ bytes = f.bytes ++ (gs.flatMap Frame.bytes ++ part) := by
  cases fs with
  | nil =>
      rw [heq, List.flatMap_nil, List.nil_append] at h
      exact absurd hpart (Nat.not_lt.2 h)
  | cons f gs => exact ⟨f, gs, rfl, by rw [heq, List.flatMap_cons, List.append_assoc]⟩

theorem not_parses_of_undecodable (h : HEADER_LEN ≤ bytes.length) {e : Proto.Error}
    (hdec : FrameHeader.decode (bytes.take HEADER_LEN) = .error e) :
    ¬ files.Parses blake3 current buf bytes := by
  rintro ⟨fs, part, heq, hpart, -⟩
  obtain ⟨f, gs, -, hbytes⟩ := Parses.cons h heq hpart
  rw [hbytes, f.decode_bytes] at hdec
  cases hdec

/-- **Where a header decodes**, the rest is read by what it says. -/
theorem parses_of_decoded (h : HEADER_LEN ≤ bytes.length) {header : FrameHeader}
    (hdec : FrameHeader.decode (bytes.take HEADER_LEN) = .ok header) :
    files.Parses blake3 current buf bytes ↔
      (header.msgType = .keepalive ∧
        files.Parses blake3 current buf (bytes.drop HEADER_LEN)) ∨
      (header.msgType = .fileData ∧ ∃ c filled,
        acceptFrame files current buf header = .ok (c, filled) ∧
        header.length.toNat ≤ (bytes.drop HEADER_LEN).length ∧
        files.Fills blake3 c (filled ++ (bytes.drop HEADER_LEN).take header.length.toNat)
          ((bytes.drop HEADER_LEN).drop header.length.toNat)) := by
  have hempty : header.msgType = .keepalive → header.length.toNat = 0 := fun hkeep => by
    rw [(FrameHeader.decode_ok hdec).2.1.keepalive_empty hkeep]
    rfl
  constructor
  · rintro ⟨fs, part, heq, hpart, htakes⟩
    obtain ⟨f, gs, rfl, hbytes⟩ := Parses.cons h heq hpart
    rw [hbytes, f.decode_bytes] at hdec
    obtain rfl := Except.ok.inj hdec
    rw [hbytes, f.drop_bytes, ← f.length_eq, List.take_left, List.drop_left]
    rcases htakes with ⟨hkeep, htakes⟩ | ⟨hdata, c, filled, hacc, hrest⟩
    · have hnil : f.payload = [] :=
        List.eq_nil_of_length_eq_zero (f.length_eq.trans (hempty hkeep))
      rw [hnil, List.nil_append]
      exact .inl ⟨hkeep, gs, part, rfl, hpart, htakes⟩
    · refine .inr ⟨hdata, c, filled, hacc, ?_, ?_⟩
      · rw [List.length_append]
        exact Nat.le_add_right _ _
      · unfold Fills
        split
        · next hfull =>
            rw [if_pos hfull] at hrest
            exact ⟨hrest.1, gs, part, rfl, hpart, hrest.2⟩
        · next hne =>
            rw [if_neg hne] at hrest
            exact ⟨gs, part, rfl, hpart, hrest⟩
  · rintro (⟨hkeep, gs, part, heq, hpart, htakes⟩ | ⟨hdata, c, filled, hacc, hlen, hfills⟩)
    · obtain ⟨f, rfl, -, hbytes⟩ := exists_frame hdec (by rw [hempty hkeep]; exact Nat.zero_le _)
      rw [hempty hkeep, List.drop_zero] at hbytes
      exact ⟨f :: gs, part, by rw [hbytes, heq, List.flatMap_cons, List.append_assoc], hpart,
        .inl ⟨hkeep, htakes⟩⟩
    · obtain ⟨f, rfl, hpayload, hbytes⟩ := exists_frame hdec hlen
      rw [← hpayload] at hfills
      unfold Fills at hfills
      split at hfills
      · next hfull =>
          obtain ⟨hcommits, gs, part, heq, hpart, htakes⟩ := hfills
          exact ⟨f :: gs, part, by rw [hbytes, heq, List.flatMap_cons, List.append_assoc], hpart,
            .inr ⟨hdata, c, filled, hacc, by rw [if_pos hfull]; exact ⟨hcommits, htakes⟩⟩⟩
      · next hne =>
          obtain ⟨gs, part, heq, hpart, htakes⟩ := hfills
          exact ⟨f :: gs, part, by rw [hbytes, heq, List.flatMap_cons, List.append_assoc], hpart,
            .inr ⟨hdata, c, filled, hacc, by rw [if_neg hne]; exact htakes⟩⟩

/-! ## What the grammar depends on -/

/-- The layouts, the digests and the sizes of the bitmaps. -/
def book (files : Files) (id : UInt64) : Option (ChunkLayout × List Hash × Nat) :=
  (files.lookup id).map fun s => (s.layout, s.chunkHashes, s.bitmap.count)

theorem book_apply (env : Env) (e : Effect) : (env.apply e).files.book = env.files.book := by
  funext id
  rw [book, book, Env.apply_files, Effect.lookup_onFiles, Option.map_map]
  cases env.files.lookup id with
  | none => rfl
  | some s =>
      have hsame := e.sameFile_onFile id s
      have hcount : (e.onFile id s).bitmap.count = s.bitmap.count := by
        rcases e.bitmap_onFile id s with heq | ⟨i, b, -, hset, heq⟩
        · rw [heq]
        · rw [heq]
          exact ChunkBitmap.count_of_set hset
      simp only [Option.map_some, Function.comp_apply, hsame.layout, hsame.chunkHashes, hcount]

variable {files' : Files}

/-- A file of one map has its counterpart in the other. -/
theorem lookup_of_book (h : files'.book = files.book) {id : UInt64} {s' : FileState}
    (hs' : files'.lookup id = some s') :
    ∃ s, files.lookup id = some s ∧ s.layout = s'.layout ∧ s.chunkHashes = s'.chunkHashes ∧
      s.bitmap.count = s'.bitmap.count := by
  have hid := congrFun h id
  rw [book, book, hs', Option.map_some, eq_comm, Option.map_eq_some_iff] at hid
  obtain ⟨s, hs, heq⟩ := hid
  rw [Prod.mk.injEq, Prod.mk.injEq] at heq
  exact ⟨s, hs, heq.1, heq.2.1, heq.2.2⟩

theorem acceptFrame_congr (h : files'.book = files.book) :
    acceptFrame files' = acceptFrame files := by
  funext current buf header
  unfold acceptFrame
  cases hs' : files'.lookup header.fileId with
  | none =>
      have hnone : files.lookup header.fileId = none := by
        by_contra hne
        obtain ⟨s, hs⟩ := Option.ne_none_iff_exists'.1 hne
        obtain ⟨s', hs'', -⟩ := lookup_of_book h.symm hs
        rw [hs'] at hs''
        cases hs''
      rw [hnone]
  | some s' =>
      obtain ⟨s, hs, hlayout, -⟩ := lookup_of_book h hs'
      have hstart : startChunk s header = startChunk s' header := by
        unfold startChunk
        rw [hlayout]
      rw [hs]
      simp only [hstart]

theorem hasBit_iff (h : files'.book = files.book) {c : Current} {s : FileState}
    (hs : files'.lookup c.fileId = some s) : files.HasBit c ↔ c.chunkIndex < s.bitmap.count := by
  obtain ⟨t, ht, -, -, hcount⟩ := lookup_of_book h hs
  rw [← hcount]
  refine ⟨fun ⟨u, hu, hbit⟩ => ?_, fun hbit => ⟨t, ht, hbit⟩⟩
  obtain rfl := Option.some.inj (ht.symm.trans hu)
  exact hbit

theorem commits_iff (h : files'.book = files.book) {c : Current} {s : FileState}
    (hs : files'.lookup c.fileId = some s) : files.Commits blake3 c buf ↔
      s.chunkHashes[c.chunkIndex]? = some (hashChunk blake3 buf) ∧ files.HasBit c := by
  obtain ⟨t, ht, -, hhashes, -⟩ := lookup_of_book h hs
  rw [← hhashes]
  refine ⟨fun ⟨u, hu, hdigest, hbit⟩ => ?_, fun ⟨hdigest, u, hu, hbit⟩ => ?_⟩
  · obtain rfl := Option.some.inj (ht.symm.trans hu)
    exact ⟨hdigest, t, ht, hbit⟩
  · obtain rfl := Option.some.inj (ht.symm.trans hu)
    exact ⟨t, ht, hdigest, hbit⟩

end Files

/-! ## The worker -/

/-- What a worker makes of the bytes it has still to read: it returns `Ok`. -/
def Worker.Accepts (blake3 : Blake3) (files : Files) (w : Worker) (bytes : List UInt8) : Prop :=
  match w.pc with
  | .header => files.Parses blake3 w.current w.buf bytes
  | .payload n => ∃ c, w.current = some c ∧ n ≤ bytes.length ∧
      files.Fills blake3 c (w.buf ++ bytes.take n) (bytes.drop n)
  | .verify => ∃ c, w.current = some c ∧ files.Commits blake3 c w.buf ∧
      files.Parses blake3 none [] bytes
  | .write _ => ∃ c, w.current = some c ∧ files.HasBit c ∧ files.Parses blake3 none [] bytes
  | .mark => ∃ c, w.current = some c ∧ files.HasBit c ∧ files.Parses blake3 none [] bytes
  | .release (.error _) => False
  | .ended (.error _) => False
  | .ended (.ok _) => True
  | _ => files.Parses blake3 none [] bytes

section

variable {p : Params} {env : Env} {files : Files} {w w' : Worker} {e : Effect} {io : IoAct}
  {more : List UInt8}

/-- Reading a header, or finding the stream closed. -/
theorem Worker.accepts_readHeader (hbook : env.files.book = files.book) (hpc : w.pc = .header)
    (hclosed : w.closed ≠ some .failed) (hmore : w.closed ≠ none → more = [])
    (h : w.readHeader env.files = some w') :
    w'.Accepts p.blake3 files (w'.inbox ++ more) ↔ w.Accepts p.blake3 files (w.inbox ++ more) := by
  have hnow : w.Accepts p.blake3 files (w.inbox ++ more)
      ↔ files.Parses p.blake3 w.current w.buf (w.inbox ++ more) := by
    rw [Accepts, hpc]
  rw [hnow]
  unfold readHeader at h
  split at h
  · next hlen =>
      have hle : HEADER_LEN ≤ (w.inbox ++ more).length := by
        rw [List.length_append]
        omega
      have htake : (w.inbox ++ more).take HEADER_LEN = w.inbox.take HEADER_LEN :=
        List.take_append_of_le_length hlen
      have hdrop : (w.inbox ++ more).drop HEADER_LEN = w.inbox.drop HEADER_LEN ++ more :=
        List.drop_append_of_le_length hlen
      simp only at h
      split at h
      · next err hdec =>
          cases h
          refine iff_of_false (fun hacc => hacc) ?_
          exact Files.not_parses_of_undecodable hle (by rw [htake]; exact hdec)
      · next header hdec =>
          rw [Files.parses_of_decoded hle (by rw [htake]; exact hdec), hdrop,
            ← Files.acceptFrame_congr hbook]
          split at h
          · next htype =>
              cases h
              simp [Accepts, hpc, htype]
          · next htype =>
              split at h
              · next err hacc =>
                  cases h
                  refine iff_of_false (fun h => h) ?_
                  rintro (⟨hkeep, -⟩ | ⟨-, c, filled, hok, -⟩)
                  · rw [htype] at hkeep
                    cases hkeep
                  · rw [hacc] at hok
                    cases hok
              · next c filled hacc =>
                  cases h
                  simp [Accepts, htype, hacc]
          · next htype =>
              cases h
              simp [Accepts, Worker.stop, htype]
          · next htype =>
              cases h
              simp [Accepts, Worker.stop, htype]
  · next hshort =>
      split at h
      · cases h
      · next heof =>
          cases h
          have hnil : more = [] := hmore (by rw [heof]; exact fun heq => by cases heq)
          rw [hnil, List.append_nil, List.append_nil, Files.parses_of_short (Nat.not_le.1 hshort)]
          cases hcur : w.current with
          | none => simp [Accepts, Worker.stop]
          | some c => simp [Accepts, Worker.stop]
      · next hfailed => exact absurd hfailed hclosed

/-- Reading a payload. -/
theorem Worker.accepts_readPayload {c : Current} {n : Nat} (hpc : w.pc = .payload n)
    (hcur : w.current = some c) (hmore : w.closed ≠ none → more = [])
    (h : w.readPayload c n = some w') :
    w'.Accepts p.blake3 files (w'.inbox ++ more) ↔ w.Accepts p.blake3 files (w.inbox ++ more) := by
  have hnow : w.Accepts p.blake3 files (w.inbox ++ more) ↔ n ≤ (w.inbox ++ more).length ∧
      files.Fills p.blake3 c (w.buf ++ (w.inbox ++ more).take n) ((w.inbox ++ more).drop n) := by
    simp [Accepts, hpc, hcur]
  rw [hnow]
  unfold readPayload at h
  split at h
  · next hn =>
      cases h
      rw [List.take_append_of_le_length hn, List.drop_append_of_le_length hn]
      have hle : n ≤ (w.inbox ++ more).length := by
        rw [List.length_append]
        omega
      simp only [hle, true_and, Files.Fills]
      split
      · next hfull => simp [Accepts, hcur]
      · next hne => simp [Accepts, hcur]
  · next hn =>
      split at h
      · cases h
      · next how hhow =>
          cases h
          have hnil : more = [] := hmore (by rw [hhow]; exact fun heq => by cases heq)
          rw [hnil, List.append_nil, List.append_nil]
          exact iff_of_false (fun hacc => hacc) fun hacc => hn hacc.1

/-- **A step of the worker on its chunk.** -/
theorem Worker.accepts_stepChunk {c : Current} {s : FileState} (hbook : env.files.book = files.book)
    (hcur : w.current = some c) (hs : env.files.lookup c.fileId = some s) (hio : io ≠ .fail)
    (hmore : w.closed ≠ none → more = []) (h : w.stepChunk p env c s w.pc io = some (w', e)) :
    w'.Accepts p.blake3 files (w'.inbox ++ more) ↔ w.Accepts p.blake3 files (w.inbox ++ more) := by
  unfold stepChunk at h
  split at h
  · next n hpc =>
      rw [Option.map_eq_some_iff] at h
      obtain ⟨w1, hread, heq⟩ := h
      cases heq
      exact accepts_readPayload hpc hcur hmore hread
  · next hpc =>
      have hnow : w.Accepts p.blake3 files (w.inbox ++ more) ↔ files.Commits p.blake3 c w.buf ∧
          files.Parses p.blake3 none [] (w.inbox ++ more) := by
        simp [Accepts, hpc, hcur]
      rw [hnow, Files.commits_iff hbook hs]
      split at h
      · cases h
      · next expected hexp =>
          split at h
          · next hne =>
              cases h
              refine iff_of_false (fun hacc => hacc) fun hacc => hne ?_
              exact Option.some.inj (hacc.1.1.symm.trans hexp)
          · next hd =>
              cases h
              rw [hexp, not_not.1 hd]
              simp [Accepts, hcur]
  · next done n hpc =>
      split at h
      · cases h
        simp [Accepts, hpc]
      · cases h
  · next done hpc =>
      split at h
      · cases h
        simp [Accepts, hpc]
      · cases h
  · exact absurd rfl hio
  · next hpc =>
      have hnow : w.Accepts p.blake3 files (w.inbox ++ more) ↔ c.chunkIndex < s.bitmap.count ∧
          files.Parses p.blake3 none [] (w.inbox ++ more) := by
        rw [← Files.hasBit_iff hbook hs]
        simp [Accepts, hpc, hcur]
      rw [hnow]
      split at h
      · next err hset =>
          cases h
          refine iff_of_false (fun hacc => hacc) fun hacc => ?_
          obtain ⟨b, hb⟩ := ChunkBitmap.set_ok hacc.1
          rw [hset] at hb
          cases hb
      · next b hset =>
          cases h
          simp [Accepts, ChunkBitmap.lt_count_of_set hset]
  · next complete hpc =>
      cases h
      simp [Accepts, hpc]
  · next complete done hpc =>
      cases h
      cases complete <;> simp [Accepts, hpc]
  · next hpc =>
      cases h
      simp [Accepts, hpc]
  · next hpc =>
      split at h
      · cases h
        simp [Accepts, hpc, Worker.finishChunk]
      · simp only [Option.some.injEq, Prod.mk.injEq] at h
        obtain ⟨rfl, -⟩ := h
        split <;> simp [Accepts, hpc, Worker.finishChunk]
  · next hpc =>
      split at h
      · cases h
        simp [Accepts, hpc, Worker.finishChunk]
      · cases h
        simp [Accepts, hpc]
  · next hpc =>
      cases h
      simp [Accepts, hpc]
  · next pc hpc =>
      split at h
      · cases h
      · cases h
        simp [Accepts, hpc]
      · next hstep =>
          cases h
          rw [checkpointStep_result hstep hio]
          simp [Accepts, hpc]
  · next result hpc =>
      cases result with
      | ok u =>
          cases h
          simp [Accepts, hpc, Worker.finishChunk]
      | error err =>
          cases h
          simp [Accepts, hpc, Worker.stop]
  · cases h

/-- **No step of the worker changes what it makes of its stream.** -/
theorem Worker.accepts_step (hbook : env.files.book = files.book)
    (hclosed : w.closed ≠ some .failed) (hio : io ≠ .fail)
    (hmore : w.closed ≠ none → more = []) (h : w.step p env io = some (w', e)) :
    w'.Accepts p.blake3 files (w'.inbox ++ more) ↔ w.Accepts p.blake3 files (w.inbox ++ more) := by
  unfold step at h
  split at h
  · cases h
  · next hpc =>
      split at h
      · rw [Option.map_eq_some_iff] at h
        obtain ⟨w1, hread, heq⟩ := h
        cases heq
        exact accepts_readHeader hbook hpc hclosed hmore hread
      · cases h
  · split at h
    · cases h
    · next c hcur =>
        split at h
        · cases h
        · next s hs => exact accepts_stepChunk hbook hcur hs hio hmore h

end

end AetherLink
