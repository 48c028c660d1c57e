import Colibri.Cluster.Net

/-!
# Frames on a stream

A frame is a length word and a payload. The writer narrows the length to the word and
looks no further; the reader has a limit of its own, a quarter of what the word can say.
So a payload over the limit is written without an error and ends the stream on the other
side, and one of `2 ^ 32` bytes or more is read as a shorter one, with what is left of it
in front of the next frame.

A writing end takes bytes until it breaks, somewhere; a frame that was cut there has been
reported to the writer. What has been accepted is read back exactly if every payload of it
is within the reader's limit (`accepted_read_iff`).

`writeFrames_eq` is what a sequence of calls leaves on the stream: the frames of the payloads that
were accepted, and a piece of one more. `readFrames_flatMap` reads frames within the limit back in
front of anything, and `le_of_readFrames` says that no frame over the limit is read.
-/

namespace Colibri.Cluster

open Wire

/-- The writing end of a connection: the bytes handed over, and how many more it takes
before it breaks. -/
structure Sink where
  sent : List UInt8
  room : Nat

/-- `write_all`, and whether it was `Ok`. -/
def Sink.writeAll (s : Sink) (bytes : List UInt8) : Bool × Sink :=
  (decide (bytes.length ≤ s.room), ⟨s.sent ++ bytes.take s.room, s.room - bytes.length⟩)

/-- `write_frame`: the length as it is left by `as u32`, then the payload. -/
def Sink.writeFrame (s : Sink) (payload : List UInt8) : Bool × Sink :=
  let (ok, s) := s.writeAll (putWord payload.length)
  if ok then s.writeAll payload else (false, s)

/-- A sequence of calls: the payloads that were accepted, and the end as it is then. -/
def Sink.writeFrames (s : Sink) : List (List UInt8) → List (List UInt8) × Sink
  | [] => ([], s)
  | p :: ps =>
    let (ok, s) := s.writeFrame p
    let (accepted, s) := s.writeFrames ps
    (if ok then p :: accepted else accepted, s)

/-- `read_frame`, `n` times. -/
def readFrames (n : Nat) (bytes : List UInt8) : Option (List (List UInt8) × List UInt8) :=
  getMany (getFrame maxFrame) n bytes

/-- **What was accepted is read back**: as many frames as there were payloads accepted, each
the payload it was, and what the stream holds besides is after them. -/
def AcceptedRead (s : Sink) (payloads : List (List UInt8)) : Prop :=
  ∃ rest, readFrames (s.writeFrames payloads).1.length (s.writeFrames payloads).2.sent
    = some ((s.writeFrames payloads).1, rest)

/-- The payloads whose frames there is room for, one after another. -/
def carried : Nat → List (List UInt8) → List (List UInt8)
  | _, [] => []
  | room, p :: ps => if 4 + p.length ≤ room then p :: carried (room - (4 + p.length)) ps else []

/-! ## The writer -/

/-- The two writes of a frame are one. -/
theorem writeFrame_eq (s : Sink) (payload : List UInt8) :
    s.writeFrame payload = s.writeAll (putFrame payload) := by
  have hframe : (putFrame payload).length = 4 + payload.length := by
    rw [putFrame, List.length_append, putWord_length]
  unfold Sink.writeFrame Sink.writeAll
  rw [putWord_length]
  dsimp only
  by_cases hword : 4 ≤ s.room
  · rw [if_pos (decide_eq_true hword), List.take_of_length_le (by rw [putWord_length]; exact hword)]
    have hroom : (putFrame payload).take s.room
        = putWord payload.length ++ payload.take (s.room - 4) := by
      rw [putFrame, List.take_append, putWord_length,
        List.take_of_length_le (by rw [putWord_length]; exact hword)]
    have hok : decide (payload.length ≤ s.room - 4)
        = decide ((putFrame payload).length ≤ s.room) := by
      rw [hframe, decide_eq_decide]
      omega
    rw [hroom, hok, hframe, List.append_assoc, Nat.sub_sub]
  · have hshort : (putFrame payload).take s.room = (putWord payload.length).take s.room := by
      rw [putFrame, List.take_append_of_le_length (by rw [putWord_length]; omega)]
    have hnot : ¬ (putFrame payload).length ≤ s.room := by omega
    have hbroken : s.room - 4 = s.room - (putFrame payload).length := by omega
    rw [if_neg (by simp [hword]), hshort, decide_eq_false hnot, hbroken]

/-- An end that has broken takes nothing more. -/
theorem writeFrames_broken (sent : List UInt8) (payloads : List (List UInt8)) :
    (Sink.mk sent 0).writeFrames payloads = ([], ⟨sent, 0⟩) := by
  induction payloads with
  | nil => rfl
  | cons p ps ih =>
    have hcall : (Sink.mk sent 0).writeFrame p = (false, ⟨sent, 0⟩) := by
      rw [writeFrame_eq, Sink.writeAll, Nat.zero_sub, List.take_zero, List.append_nil]
      exact congrArg (fun b => (b, Sink.mk sent 0)) (decide_eq_false (by simp [putFrame]))
    rw [Sink.writeFrames, hcall]
    dsimp only
    rw [ih]
    rfl

/-- **A sequence of calls**: accepted is what there is room for, and the stream holds the
frames of it and a piece of the next. -/
theorem writeFrames_eq (s : Sink) (payloads : List (List UInt8)) :
    (s.writeFrames payloads).1 = carried s.room payloads ∧
    ∃ piece, (s.writeFrames payloads).2.sent
      = s.sent ++ ((carried s.room payloads).flatMap putFrame ++ piece) := by
  induction payloads generalizing s with
  | nil => exact ⟨rfl, [], by simp [Sink.writeFrames, carried]⟩
  | cons p ps ih =>
    have hframe : (putFrame p).length = 4 + p.length := by
      rw [putFrame, List.length_append, putWord_length]
    rw [Sink.writeFrames, carried, writeFrame_eq, Sink.writeAll, hframe]
    dsimp only
    by_cases hroom : 4 + p.length ≤ s.room
    · obtain ⟨hacc, piece, hsent⟩ := ih
        ⟨s.sent ++ (putFrame p).take s.room, s.room - (4 + p.length)⟩
      dsimp only at hacc hsent
      rw [if_pos (decide_eq_true hroom), if_pos hroom, hacc, hsent]
      refine ⟨rfl, piece, ?_⟩
      rw [List.take_of_length_le (hframe ▸ hroom), List.flatMap_cons, List.append_assoc,
        List.append_assoc]
    · have hbroken : s.room - (4 + p.length) = 0 := by omega
      rw [hbroken, writeFrames_broken, if_neg (by simp [hroom]), if_neg hroom]
      exact ⟨rfl, (putFrame p).take s.room, rfl⟩

/-! ## The reader -/

theorem readFrames_flatMap {payloads : List (List UInt8)} (h : ∀ p ∈ payloads, p.length ≤ maxFrame)
    (rest : List UInt8) :
    readFrames payloads.length (payloads.flatMap putFrame ++ rest) = some (payloads, rest) := by
  refine getMany_flatMap (fun p hp rest => ?_) rest
  have hle := h p hp
  rw [getFrame_append _ (Nat.lt_of_le_of_lt hle (by decide)), if_pos hle]

/-- No frame over the limit is read. -/
theorem le_of_readFrames {n : Nat} {bytes rest : List UInt8} {payloads : List (List UInt8)}
    (h : readFrames n bytes = some (payloads, rest)) : ∀ p ∈ payloads, p.length ≤ maxFrame := by
  unfold readFrames at h
  induction n generalizing bytes payloads with
  | zero =>
    cases h
    exact fun p hp => absurd hp List.not_mem_nil
  | succ n ih =>
    rw [getMany_succ] at h
    obtain ⟨⟨p, mid⟩, hp, h⟩ := Option.bind_eq_some_iff.mp h
    obtain ⟨⟨ps, tail⟩, hps, h⟩ := Option.bind_eq_some_iff.mp h
    cases h
    intro q hq
    rcases List.mem_cons.mp hq with rfl | hq
    · exact (getFrame_some hp).1
    · exact ih hps q hq

/-- **Frames on a stream that may break anywhere**: the calls that returned `Ok` are read
back one for one, each the payload it was given, exactly if no payload that the stream had
room for is over the reader's limit. -/
theorem accepted_read_iff (room : Nat) (payloads : List (List UInt8)) :
    AcceptedRead ⟨[], room⟩ payloads ↔ ∀ p ∈ carried room payloads, p.length ≤ maxFrame := by
  obtain ⟨hacc, piece, hsent⟩ := writeFrames_eq ⟨[], room⟩ payloads
  rw [List.nil_append] at hsent
  unfold AcceptedRead
  rw [hacc, hsent]
  constructor
  · rintro ⟨rest, hread⟩
    exact le_of_readFrames hread
  · intro hle
    exact ⟨piece, readFrames_flatMap hle piece⟩

/-- A payload whose length the word leaves nothing of is read as an empty one. -/
theorem readFrames_wrapped {payload : List UInt8} (h : payload.length = 2 ^ 32)
    (rest : List UInt8) :
    readFrames 1 (putFrame payload ++ rest) = some ([[]], payload ++ rest) := by
  have hword : getWord (putFrame payload ++ rest) = some (0, payload ++ rest) := by
    rw [putFrame, List.append_assoc, getWord_putWord, h]
    rfl
  rw [readFrames, getMany, getFrame, hword]
  dsimp only
  rw [if_neg (Nat.not_lt_zero _), if_pos (Nat.zero_le _), List.take_zero, List.drop_zero]
  rfl

theorem carried_one {room : Nat} {payload : List UInt8} (h : 4 + payload.length ≤ room) :
    carried room [payload] = [payload] := by
  rw [carried, if_pos h, carried]

/-- One byte over the limit. -/
def overLimit : List UInt8 := List.replicate (2 ^ 30 + 1) 0

theorem length_overLimit : overLimit.length = 2 ^ 30 + 1 := List.length_replicate

/-- `2 ^ 32` bytes: the word says there are none. -/
def overWord : List UInt8 := List.replicate (2 ^ 32) 0

theorem length_overWord : overWord.length = 2 ^ 32 := List.length_replicate

/-- A payload of a byte more than 1 GiB is accepted and never read; one of 4 GiB is
accepted and read as an empty one. -/
theorem long_payloads_accepted :
    (Sink.writeFrames ⟨[], 2 ^ 33⟩ [overLimit]).1 = [overLimit] ∧
    ¬ AcceptedRead ⟨[], 2 ^ 33⟩ [overLimit] ∧
    (Sink.writeFrames ⟨[], 2 ^ 33⟩ [overWord]).1 = [overWord] ∧
    ∃ rest, readFrames 1 (Sink.writeFrames ⟨[], 2 ^ 33⟩ [overWord]).2.sent = some ([[]], rest) := by
  have hlimit := length_overLimit
  have hword := length_overWord
  generalize overLimit = long at *
  generalize overWord = longer at *
  have hcarried : carried (2 ^ 33) [long] = [long] := carried_one (by omega)
  have hwhole : carried (2 ^ 33) [longer] = [longer] := carried_one (by omega)
  have haccepted := (writeFrames_eq ⟨[], 2 ^ 33⟩ [long]).1.trans hcarried
  refine ⟨haccepted, ?_, (writeFrames_eq _ _).1.trans hwhole, ?_⟩
  · rintro ⟨rest, hread⟩
    rw [haccepted] at hread
    have hle := le_of_readFrames hread long (List.mem_singleton_self _)
    unfold maxFrame at hle
    omega
  · obtain ⟨-, piece, hsent⟩ := writeFrames_eq ⟨[], 2 ^ 33⟩ [longer]
    dsimp only at hsent
    rw [hsent, hwhole, List.flatMap_singleton, List.nil_append]
    exact ⟨_, readFrames_wrapped hword piece⟩

end Colibri.Cluster
