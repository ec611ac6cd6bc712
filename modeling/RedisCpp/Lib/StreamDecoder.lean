import Mathlib.Data.List.Basic

/-!
# Decoding a stream that arrives in chunks

A decoder looks at the bytes received so far and finds a frame at their front, asks
for more, or fails.  A receiver keeps a buffer: each chunk is appended and all frames
now complete are taken off.  The result of a run does not depend on the chunks if the
decoder never changes its mind: at every frame boundary of the stream, what it says
about an initial part of the remaining bytes is what it says about all of them.
-/

namespace StreamDecoder

variable {Byte Frame Failure : Type*}

/-- What a decoder says about the bytes received so far. -/
inductive Outcome (Frame Failure : Type*) where
  | complete (frame : Frame) (length : ℕ)
  | incomplete
  | failed (failure : Failure)
deriving DecidableEq, Repr

/-- The frames taken off a buffer, the bytes left, and the failure that ended it. -/
structure Extraction (Byte Frame Failure : Type*) where
  frames : List Frame
  rest : List Byte
  failure : Option Failure
deriving DecidableEq, Repr

section Receiver

variable (decode : List Byte → Outcome Frame Failure)

/-- Take frames off the front of the data. -/
def extractLoop : ℕ → List Byte → Extraction Byte Frame Failure
  | 0, data => ⟨[], data, none⟩
  | fuel + 1, data =>
      if data.isEmpty then ⟨[], data, none⟩
      else
        match decode data with
        | .complete frame length =>
            let next := extractLoop fuel (data.drop length)
            ⟨frame :: next.frames, next.rest, next.failure⟩
        | .incomplete => ⟨[], data, none⟩
        | .failed failure => ⟨[], data, some failure⟩

/-- Take all complete frames off a buffer. -/
def extract (buffer : List Byte) : Extraction Byte Frame Failure :=
  extractLoop decode buffer.length buffer

/-- Append the chunks to the buffer one after the other, extracting after each. -/
def receive : List Byte → List (List Byte) → Extraction Byte Frame Failure
  | buffer, [] => ⟨[], buffer, none⟩
  | buffer, chunk :: chunks =>
      let taken := extract decode (buffer ++ chunk)
      match taken.failure with
      | some _ => taken
      | none =>
          let later := receive taken.rest chunks
          ⟨taken.frames ++ later.frames, later.rest, later.failure⟩

/-- A frame has at least one byte and lies within the data. -/
def Progresses : Prop :=
  ∀ data frame length, decode data = .complete frame length → 0 < length ∧ length ≤ data.length

/-- What remains of a stream at one of its frame boundaries. -/
inductive Boundary (stream : List Byte) : List Byte → Prop where
  | start : Boundary stream stream
  | next {data : List Byte} {frame : Frame} {length : ℕ} (boundary : Boundary stream data)
      (complete : decode data = .complete frame length) : Boundary stream (data.drop length)

/-- What the decoder says about an initial part, it says about all of the data. -/
def Consistent (data : List Byte) : Prop :=
  ∀ front back, data = front ++ back → decode front ≠ .incomplete → decode data = decode front

/-- A frame is found from its own bytes: what follows them is not needed. -/
def SelfContained : Prop :=
  ∀ front back frame length, decode (front ++ back) = .complete frame length →
    length ≤ front.length → decode front = .complete frame length

end Receiver

variable {decode : List Byte → Outcome Frame Failure}

/-- Enough fuel is enough: the loop ends because the data do. -/
theorem extractLoop_congr (progresses : Progresses decode) {fuel other : ℕ} {data : List Byte}
    (enough : data.length ≤ fuel) (otherEnough : data.length ≤ other) :
    extractLoop decode fuel data = extractLoop decode other data := by
  induction fuel generalizing other data with
  | zero =>
      have empty : data = [] := List.length_eq_zero_iff.mp (Nat.le_zero.mp enough)
      subst empty
      cases other with
      | zero => rfl
      | succ other => rfl
  | succ fuel inductionHypothesis =>
      cases other with
      | zero =>
          have empty : data = [] := List.length_eq_zero_iff.mp (Nat.le_zero.mp otherEnough)
          subst empty
          rfl
      | succ other =>
          simp only [extractLoop]
          split
          · rfl
          · cases said : decode data with
            | incomplete => rfl
            | failed failure => rfl
            | complete frame length =>
                have bounds := progresses data frame length said
                have left : extractLoop decode fuel (data.drop length) =
                    extractLoop decode other (data.drop length) := by
                  apply inductionHypothesis
                  · simp only [List.length_drop]
                    omega
                  · simp only [List.length_drop]
                    omega
                simp only [left]

@[simp]
theorem extract_nil : extract decode [] = ⟨[], [], none⟩ := rfl

theorem extract_incomplete {data : List Byte} (said : decode data = .incomplete) :
    extract decode data = ⟨[], data, none⟩ := by
  cases data with
  | nil => rfl
  | cons byte rest =>
      simp only [extract, List.length_cons, extractLoop, List.isEmpty_cons, Bool.false_eq_true,
        if_false, said]

theorem extract_failed {data : List Byte} (nonempty : data ≠ []) {failure : Failure}
    (said : decode data = .failed failure) :
    extract decode data = ⟨[], data, some failure⟩ := by
  cases data with
  | nil => exact absurd rfl nonempty
  | cons byte rest =>
      simp only [extract, List.length_cons, extractLoop, List.isEmpty_cons, Bool.false_eq_true,
        if_false, said]

theorem extract_complete (progresses : Progresses decode) {data : List Byte} {frame : Frame}
    {length : ℕ} (said : decode data = .complete frame length) :
    extract decode data =
      ⟨frame :: (extract decode (data.drop length)).frames,
        (extract decode (data.drop length)).rest,
        (extract decode (data.drop length)).failure⟩ := by
  have bounds := progresses data frame length said
  cases data with
  | nil =>
      simp only [List.length_nil] at bounds
      omega
  | cons byte rest =>
      have left : extractLoop decode rest.length ((byte :: rest).drop length) =
          extract decode ((byte :: rest).drop length) := by
        apply extractLoop_congr progresses
        · simp only [List.length_drop, List.length_cons]
          omega
        · exact Nat.le_refl _
      rw [extract, List.length_cons, extractLoop]
      simp only [List.isEmpty_cons, Bool.false_eq_true, if_false, said, left]

/-- A boundary of what remains is a boundary of the stream. -/
theorem Boundary.trans {stream data rest : List Byte} (boundary : Boundary decode stream data)
    (later : Boundary decode data rest) : Boundary decode stream rest := by
  induction later with
  | start => exact boundary
  | next _ complete inductionHypothesis => exact inductionHypothesis.next complete

/-- Extracting from a stream fails if and only if it fails from one of its boundaries on. -/
theorem Boundary.extract_failure (progresses : Progresses decode) {stream data : List Byte}
    (boundary : Boundary decode stream data) :
    (extract decode stream).failure = (extract decode data).failure := by
  induction boundary with
  | start => rfl
  | next _ complete inductionHypothesis =>
      rw [inductionHypothesis, extract_complete progresses complete]

/-- Extraction fails exactly if the decoder does at one of the boundaries. -/
theorem extract_failure_iff (progresses : Progresses decode) {stream : List Byte}
    {failure : Failure} :
    (extract decode stream).failure = some failure ↔
      ∃ data, Boundary decode stream data ∧ data ≠ [] ∧ decode data = .failed failure := by
  constructor
  · intro failed
    induction size : stream.length using Nat.strongRecOn generalizing stream with
    | _ bound inductionHypothesis =>
        cases said : decode stream with
        | incomplete =>
            rw [extract_incomplete said] at failed
            cases failed
        | failed found =>
            by_cases empty : stream = []
            · rw [empty, extract_nil] at failed
              cases failed
            · rw [extract_failed empty said] at failed
              cases failed
              exact ⟨stream, .start, empty, said⟩
        | complete frame length =>
            have bounds := progresses stream frame length said
            rw [extract_complete progresses said] at failed
            have shorter : (stream.drop length).length < bound := by
              simp only [List.length_drop]
              omega
            rcases inductionHypothesis _ shorter failed rfl with ⟨data, reached, found⟩
            exact ⟨data, (Boundary.start.next said).trans reached, found⟩
  · rintro ⟨data, boundary, nonempty, said⟩
    rw [boundary.extract_failure progresses, extract_failed nonempty said]

/-- Extracting from the front first and from what it leaves afterwards. -/
theorem extract_append (progresses : Progresses decode) (front back : List Byte)
    (consistent : ∀ data, Boundary decode (front ++ back) data → Consistent decode data)
    (clean : (extract decode (front ++ back)).failure = none) :
    (extract decode front).failure = none ∧
      Boundary decode (front ++ back) ((extract decode front).rest ++ back) ∧
      extract decode (extract decode front).rest = ⟨[], (extract decode front).rest, none⟩ ∧
      extract decode (front ++ back) =
        ⟨(extract decode front).frames ++
            (extract decode ((extract decode front).rest ++ back)).frames,
          (extract decode ((extract decode front).rest ++ back)).rest,
          (extract decode ((extract decode front).rest ++ back)).failure⟩ := by
  induction size : front.length using Nat.strongRecOn generalizing front with
  | _ bound inductionHypothesis =>
      have agrees := consistent (front ++ back) .start front back rfl
      cases said : decode front with
      | incomplete =>
          simp only [extract_incomplete said, List.nil_append]
          exact ⟨trivial, .start, trivial, trivial⟩
      | failed failure =>
          rw [said] at agrees
          by_cases empty : front = []
          · subst front
            simp only [extract_nil, List.nil_append]
            exact ⟨trivial, .start, trivial, trivial⟩
          · have whole := agrees (by simp)
            rw [extract_failed (by simp [empty]) whole] at clean
            cases clean
      | complete frame length =>
          rw [said] at agrees
          have whole := agrees (by simp)
          have bounds := progresses front frame length said
          have dropped : (front ++ back).drop length = front.drop length ++ back :=
            List.drop_append_of_le_length bounds.2
          have boundary : Boundary decode (front ++ back) (front.drop length ++ back) := by
            rw [← dropped]
            exact Boundary.start.next whole
          have shorter : (front.drop length).length < bound := by
            simp only [List.length_drop]
            omega
          rw [extract_complete progresses whole, dropped] at clean
          have later := inductionHypothesis _ shorter (front.drop length)
            (fun data reached => consistent data (boundary.trans reached)) clean rfl
          rcases later with ⟨alive, reached, settled, rest_eq⟩
          rw [extract_complete progresses said, extract_complete progresses whole, dropped]
          refine ⟨alive, boundary.trans reached, settled, ?_⟩
          simp only [rest_eq, List.cons_append]

/-- Chunks make no difference on a stream at whose boundaries the decoder is
consistent and that it decodes without failure. -/
theorem receive_eq_extract (progresses : Progresses decode) {buffer : List Byte}
    {chunks : List (List Byte)}
    (settled : extract decode buffer = ⟨[], buffer, none⟩)
    (consistent : ∀ data, Boundary decode (buffer ++ chunks.flatten) data →
      Consistent decode data)
    (clean : (extract decode (buffer ++ chunks.flatten)).failure = none) :
    receive decode buffer chunks = extract decode (buffer ++ chunks.flatten) := by
  induction chunks generalizing buffer with
  | nil =>
      simp only [List.flatten_nil, List.append_nil]
      exact settled.symm
  | cons chunk chunks inductionHypothesis =>
      simp only [List.flatten_cons, ← List.append_assoc] at consistent clean ⊢
      rcases extract_append progresses (buffer ++ chunk) chunks.flatten consistent clean with
        ⟨alive, reached, left, whole⟩
      have later := inductionHypothesis left
        (fun data boundary => consistent data (reached.trans boundary))
      rw [whole] at clean
      rw [receive]
      simp only [alive, later clean, whole]

/-- The bytes left are at most all. -/
theorem length_rest_le (progresses : Progresses decode) (data : List Byte) :
    (extract decode data).rest.length ≤ data.length := by
  induction size : data.length using Nat.strongRecOn generalizing data with
  | _ bound inductionHypothesis =>
      cases said : decode data with
      | incomplete =>
          rw [extract_incomplete said]
          exact Nat.le_of_eq size
      | failed failure =>
          by_cases empty : data = []
          · simp [empty]
          · rw [extract_failed empty said]
            exact Nat.le_of_eq size
      | complete frame length =>
          have bounds := progresses data frame length said
          have shorter : (data.drop length).length < bound := by
            simp only [List.length_drop]
            omega
          rw [extract_complete progresses said]
          exact Nat.le_trans (inductionHypothesis _ shorter _ rfl) (Nat.le_of_lt shorter)

/-- Unless extraction fails, no complete frame is left. -/
theorem extract_rest (progresses : Progresses decode) {data : List Byte}
    (alive : (extract decode data).failure = none) :
    extract decode (extract decode data).rest = ⟨[], (extract decode data).rest, none⟩ := by
  induction size : data.length using Nat.strongRecOn generalizing data with
  | _ bound inductionHypothesis =>
      cases said : decode data with
      | incomplete => rw [extract_incomplete said, extract_incomplete said]
      | failed failure =>
          by_cases empty : data = []
          · simp [empty]
          · rw [extract_failed empty said] at alive
            cases alive
      | complete frame length =>
          have bounds := progresses data frame length said
          have shorter : (data.drop length).length < bound := by
            simp only [List.length_drop]
            omega
          rw [extract_complete progresses said] at alive ⊢
          exact inductionHypothesis _ shorter alive rfl

/-- One more chunk. -/
theorem receive_snoc {buffer rest : List Byte} {chunks : List (List Byte)} {frames : List Frame}
    (received : receive decode buffer chunks = ⟨frames, rest, none⟩) (chunk : List Byte) :
    receive decode buffer (chunks ++ [chunk]) =
      ⟨frames ++ (extract decode (rest ++ chunk)).frames, (extract decode (rest ++ chunk)).rest,
        (extract decode (rest ++ chunk)).failure⟩ := by
  induction chunks generalizing buffer frames with
  | nil =>
      simp only [receive, Extraction.mk.injEq, and_true] at received
      rcases received with ⟨rfl, rfl⟩
      simp only [List.nil_append, receive]
      cases failed : (extract decode (buffer ++ chunk)).failure with
      | none => simp
      | some failure => simp [← failed]
  | cons first chunks inductionHypothesis =>
      simp only [receive, List.cons_append] at received ⊢
      cases failed : (extract decode (buffer ++ first)).failure with
      | some failure =>
          rw [failed] at received
          simp only at received
          rw [received] at failed
          cases failed
      | none =>
          rw [failed] at received
          simp only [Extraction.mk.injEq] at received ⊢
          rcases received with ⟨rfl, left, alive⟩
          have later : receive decode (extract decode (buffer ++ first)).rest chunks =
              ⟨(receive decode (extract decode (buffer ++ first)).rest chunks).frames, rest,
                none⟩ := by
            rw [← left, ← alive]
          rw [inductionHypothesis later, List.append_assoc]
          exact ⟨rfl, rfl, rfl⟩

/-- The stream up to one of its boundaries gives the same frames whatever initial part
of the remaining data has arrived. -/
theorem Boundary.extract_front (progresses : Progresses decode)
    (selfContained : SelfContained decode) {stream data : List Byte}
    (boundary : Boundary decode stream data) :
    ∃ front frames, stream = front ++ data ∧
      ∀ part back, data = part ++ back → extract decode (front ++ part) =
        ⟨frames ++ (extract decode part).frames, (extract decode part).rest,
          (extract decode part).failure⟩ := by
  induction boundary with
  | start => exact ⟨[], [], rfl, fun part back _ => rfl⟩
  | @next data frame length _ complete inductionHypothesis =>
      rcases inductionHypothesis with ⟨front, frames, stream_eq, taken⟩
      have bounds := progresses data frame length complete
      refine ⟨front ++ data.take length, frames ++ [frame], ?_, ?_⟩
      · simp only [stream_eq, List.append_assoc, List.take_append_drop]
      · intro part back dropped
        have data_eq : data = (data.take length ++ part) ++ back := by
          rw [List.append_assoc, ← dropped, List.take_append_drop]
        have reach : length ≤ (data.take length ++ part).length := by
          simp only [List.length_append, List.length_take]
          omega
        have early : decode (data.take length ++ part) = .complete frame length := by
          apply selfContained _ back _ _ _ reach
          rw [← data_eq]
          exact complete
        have left : (data.take length ++ part).drop length = part := by
          rw [List.drop_append_of_le_length (by simp only [List.length_take]; omega),
            List.drop_take_self, List.nil_append]
        have whole := taken _ back data_eq
        rw [extract_complete progresses early, left] at whole
        simp only [List.append_assoc, whole, List.cons_append, List.nil_append]

/-- If the decoder finds another frame in an initial part of the remaining data than in
all of them, it makes a difference whether the stream is cut behind that part. -/
theorem Boundary.cut_ne (progresses : Progresses decode) (selfContained : SelfContained decode)
    {stream part back : List Byte} (boundary : Boundary decode stream (part ++ back))
    {early late : Frame} {length : ℕ} (found : decode part = .complete early part.length)
    (complete : decode (part ++ back) = .complete late length) (differ : early ≠ late) :
    ∃ left right : List (List Byte), left.flatten = stream ∧ right.flatten = stream ∧
      receive decode [] left ≠ receive decode [] right := by
  rcases boundary.extract_front progresses selfContained with ⟨front, frames, stream_eq, taken⟩
  refine ⟨[front ++ part, back], [stream], ?_, ?_, ?_⟩
  · simp [stream_eq]
  · simp
  · intro same
    have cut := taken part back rfl
    have whole := taken (part ++ back) [] (by simp)
    rw [← stream_eq, extract_complete progresses complete] at whole
    rw [extract_complete progresses found, List.drop_length, extract_nil] at cut
    have frames_eq := congrArg Extraction.frames same
    simp only [receive, List.nil_append, cut] at frames_eq
    have whole_frames : (receive decode [] [stream]).frames = (extract decode stream).frames := by
      simp only [receive, List.nil_append]
      split
      · rfl
      · simp
    have heads := frames_eq.trans (whole_frames.trans (congrArg Extraction.frames whole))
    simp only [List.append_assoc, List.append_cancel_left_eq, List.cons_append, List.nil_append,
      List.cons.injEq] at heads
    exact differ heads.1

end StreamDecoder
