import AetherLink.Core.ControlStream

set_option autoImplicit false

/-! # Messages on the control stream

A message that fits a frame is read back as it was written, and nothing of what comes after it is
taken. A stream of messages is then read one message after the other, and where it is cut the messages
before the cut are read and the next read fails. -/

namespace AetherLink

variable {codec : Codec}

/-! ## Frames -/

theorem readExact_append {n : Nat} {bytes : List UInt8} (h : bytes.length = n)
    (rest : List UInt8) : readExact n (bytes ++ rest) = .ok (bytes, rest) := by
  rw [readExact, if_neg (by rw [List.length_append]; omega), List.take_left' h, List.drop_left' h]

theorem readExact_short {n : Nat} {stream : List UInt8} (h : stream.length < n) :
    readExact n stream = .error (.io "early eof") :=
  if_pos h

/-- The stream opens with a control frame that has this payload. -/
structure ControlFrame (header : FrameHeader) (payload : List UInt8) : Prop where
  valid : header.Valid
  control : header.msgType = .control
  length_eq : header.length.toNat = payload.length

theorem readControl_frame {header : FrameHeader} {payload : List UInt8}
    (h : ControlFrame header payload) (rest : List UInt8) :
    readControl codec (header.encode ++ (payload ++ rest)) =
      match codec.decode payload with
      | none => .error (.protocol "decoding control message")
      | some msg => msg.intoBody.map fun body => (body, rest) := by
  have hheader := readExact_append (FrameHeader.length_encode header) (payload ++ rest)
  have hpayload := readExact_append h.length_eq.symm rest
  unfold readControl
  cases hdecode : codec.decode payload with
  | none =>
      simp only [hheader, FrameHeader.decode_encode h.valid, h.control, ne_eq, not_true_eq_false,
        if_false, hpayload, hdecode]
  | some msg =>
      simp only [hheader, FrameHeader.decode_encode h.valid, h.control, ne_eq, not_true_eq_false,
        if_false, hpayload, hdecode]

/-- What `write_control` writes is a control frame. -/
theorem writeControl_ok {msg : ControlMessage} {bytes : List UInt8}
    (h : writeControl codec msg = .ok bytes) : ∃ header,
      ControlFrame header (codec.encode msg) ∧ bytes = header.encode ++ codec.encode msg := by
  unfold writeControl at h
  simp only at h
  split at h
  · cases h
  · next hlen =>
      have hmax : MAX_FRAME_PAYLOAD = 8388608 := by decide
      have hnat : (UInt32.ofNat (codec.encode msg).length).toNat = (codec.encode msg).length :=
        UInt32.toNat_ofNat_of_lt' (by rw [UInt32.size]; omega)
      refine ⟨_, ⟨⟨?_, ?_, ?_⟩, rfl, hnat⟩, (Except.ok.inj h).symm⟩
      · rw [FrameHeader.new, hnat]
        omega
      · exact show (0 : UInt16) &&& ~~~Flags.KNOWN = 0 by decide
      · intro hkeepalive
        simp [FrameHeader.new] at hkeepalive

/-- A message that has been written is read back, and nothing of what comes after it. -/
theorem readControl_writeControl {body : WireBody} {bytes : List UInt8}
    (hcodec : codec.RoundTrips (some body)) (h : writeControl codec (some body) = .ok bytes)
    (rest : List UInt8) : readControl codec (bytes ++ rest) = .ok (body, rest) := by
  obtain ⟨header, hframe, rfl⟩ := writeControl_ok h
  rw [List.append_assoc, readControl_frame hframe, hcodec]
  rfl

/-- A part of a frame is not read as anything. -/
theorem readControl_cut {body : WireBody} {bytes cut : List UInt8}
    (h : writeControl codec (some body) = .ok bytes) (hcut : cut <+: bytes)
    (hlt : cut.length < bytes.length) : readControl codec cut = .error (.io "early eof") := by
  obtain ⟨header, hframe, rfl⟩ := writeControl_ok h
  obtain ⟨more, hmore⟩ := hcut
  have hheader := FrameHeader.length_encode header
  rw [List.length_append, hheader] at hlt
  by_cases hshort : cut.length < HEADER_LEN
  · unfold readControl
    simp only [readExact_short hshort]
  · -- the header is there, and the payload is not
    have htake : cut.take HEADER_LEN = header.encode := by
      have htaken := congrArg (List.take HEADER_LEN) hmore
      rw [List.take_append_of_le_length (by omega), List.take_left' hheader] at htaken
      exact htaken
    have hpart : (cut.drop HEADER_LEN).length < header.length.toNat := by
      rw [List.length_drop, hframe.length_eq]
      omega
    have hread : readExact HEADER_LEN cut = .ok (header.encode, cut.drop HEADER_LEN) := by
      rw [readExact, if_neg hshort, htake]
    unfold readControl
    simp only [hread, FrameHeader.decode_encode hframe.valid, hframe.control, ne_eq,
      not_true_eq_false, if_false, readExact_short hpart]

/-! ## A stream of messages -/

/-- Reads this many messages, one after the other. -/
def readControls (codec : Codec) : Nat → List UInt8 → Except Error (List WireBody × List UInt8)
  | 0, stream => .ok ([], stream)
  | n + 1, stream =>
      match readControl codec stream with
      | .error e => .error e
      | .ok (body, rest) =>
          (readControls codec n rest).map fun (bodies, rest') => (body :: bodies, rest')

/-- Each message has been written as its frame. -/
def Written (codec : Codec) (bodies : List WireBody) (frames : List (List UInt8)) : Prop :=
  List.Forall₂ (fun body frame => writeControl codec (some body) = .ok frame) bodies frames

/-- **Messages arrive whole and in order**, if the decoder decodes them as they were encoded. Wherever a
    stream of written messages is cut, there is a number of messages whose frames are before the cut:
    these are read as they were written, the next read finds that the stream has ended, and a stream
    that is not cut is read to its end. -/
theorem control_stream_cut {bodies : List WireBody} {frames : List (List UInt8)}
    (hcodec : ∀ body ∈ bodies, codec.RoundTrips (some body)) (h : Written codec bodies frames)
    {cut : List UInt8} (hcut : cut <+: frames.flatten) :
    ∃ n rest, n ≤ bodies.length ∧ cut = (frames.take n).flatten ++ rest ∧
      readControls codec n cut = .ok (bodies.take n, rest) ∧
      readControl codec rest = .error (.io "early eof") ∧
      (cut = frames.flatten → n = bodies.length ∧ rest = []) := by
  induction h generalizing cut with
  | nil =>
      obtain rfl := List.prefix_nil.1 hcut
      exact ⟨0, [], Nat.le_refl 0, rfl, rfl, rfl, fun _ => ⟨rfl, rfl⟩⟩
  | @cons body frame bodies frames hbody hrest ih =>
      rw [List.flatten_cons] at hcut
      by_cases hlt : cut.length < frame.length
      · have hpart : cut <+: frame :=
          List.prefix_of_prefix_length_le hcut (List.prefix_append _ _) (Nat.le_of_lt hlt)
        refine ⟨0, cut, Nat.zero_le _, rfl, rfl, readControl_cut hbody hpart hlt, fun hall => ?_⟩
        rw [hall, List.flatten_cons, List.length_append] at hlt
        omega
      · obtain ⟨more, rfl⟩ : frame <+: cut :=
          List.prefix_of_prefix_length_le (List.prefix_append _ _) hcut (Nat.le_of_not_lt hlt)
        have hmore : more <+: frames.flatten := (List.prefix_append_right_inj frame).1 hcut
        obtain ⟨n, rest, hn, hsplit, hread, hend, hall⟩ :=
          ih (fun b hb => hcodec b (List.mem_cons_of_mem _ hb)) hmore
        refine ⟨n + 1, rest, Nat.succ_le_succ hn, ?_, ?_, hend, fun heq => ?_⟩
        · rw [List.take_succ_cons, List.flatten_cons, List.append_assoc, ← hsplit]
        · simp only [readControls, readControl_writeControl (hcodec body List.mem_cons_self) hbody, hread, List.take_succ_cons]
          rfl
        · rw [List.flatten_cons] at heq
          obtain ⟨rfl, hnil⟩ := hall (List.append_cancel_left heq)
          exact ⟨rfl, hnil⟩

/-- The wire format of an `Accept` of one file of one chunk and of a `TransferComplete` of few bytes. -/
def answerCodec : Codec where
  encode
    | some (.accept ⟨[0], [⟨0, [0]⟩]⟩) => [0x1A, 8, 0x0A, 1, 0, 0x12, 3, 0x12, 1, 0]
    | some (.complete n) => [0x22, 2, 0x08, n.toUInt8]
    | _ => []
  decode
    | [0x1A, 8, 0x0A, 1, 0, 0x12, 3, 0x12, 1, 0] => some (some (.accept ⟨[0], [⟨0, [0]⟩]⟩))
    | [0x22, 2, 0x08, n] => some (some (.complete n.toUInt64))
    | _ => none

/-- What a receiver writes over a file of three bytes. -/
def answers : List WireBody :=
  [.accept ⟨[0], [⟨0, [0]⟩]⟩, .complete 3]

def answerFrames : List (List UInt8) :=
  [(FrameHeader.new .control 0 0 10).encode ++ [0x1A, 8, 0x0A, 1, 0, 0x12, 3, 0x12, 1, 0],
    (FrameHeader.new .control 0 0 4).encode ++ [0x22, 2, 0x08, 3]]

/-- The stream is cut in the header of the second frame. -/
theorem control_stream_cut_answers :
    ∃ n rest, n ≤ 2 ∧
      answerFrames.flatten.take 50 = (answerFrames.take n).flatten ++ rest ∧
      readControls answerCodec n (answerFrames.flatten.take 50) = .ok (answers.take n, rest) ∧
      readControl answerCodec rest = .error (.io "early eof") ∧
      (answerFrames.flatten.take 50 = answerFrames.flatten → n = 2 ∧ rest = []) := by
  have hcodec : ∀ body ∈ answers, answerCodec.RoundTrips (some body) := by
    simp only [answers, List.forall_mem_cons, List.not_mem_nil, false_imp_iff, implies_true,
      and_true]
    exact ⟨rfl, rfl⟩
  have hwritten : Written answerCodec answers answerFrames := .cons rfl (.cons rfl .nil)
  exact control_stream_cut hcodec hwritten (List.take_prefix _ _)

end AetherLink
