import Mathlib.Data.List.Basic

/-!
# Event streams

A server-sent event stream is lines of the form `name: value`, and a blank line ends an event. A
line ends with a line feed, a carriage return, or both. All that counts here are the `data` lines:
an event without one is not dispatched, and several are joined with line feeds.

The reader takes one byte at a time, so it can be given a stream as it arrives. It never takes an
event back (`events_prefix`): whoever has read the beginning of a stream has got the beginning of
its events. An event whose data is one line is written with `event`, and read as what was
written (`events_flatMap`).

`Reader` is a state and `Reader.feed` a byte. That a carriage return and a line feed end one line
together is what its flag `returned` is for. `foldl_flatMap` is the induction over the events.
-/

namespace Colibri.EventStream

/-! ## Reading -/

def lineFeed : UInt8 := 0x0A
def carriageReturn : UInt8 := 0x0D
def colon : UInt8 := 0x3A
def blank : UInt8 := 0x20

/-- `data` -/
def dataName : List UInt8 := [0x64, 0x61, 0x74, 0x61]

/-- One blank after the colon does not belong to the value. -/
def dropBlank : List UInt8 → List UInt8
  | [] => []
  | b :: v => if b = blank then v else b :: v

/-- What a line has to say about the data of its event. -/
def dataOf (line : List UInt8) : Option (List UInt8) :=
  if line.takeWhile (· ≠ colon) = dataName then
    some (dropBlank ((line.dropWhile (· ≠ colon)).drop 1))
  else none

/-- The line that is being read, the data lines of its event, and the events so far. -/
structure Reader where
  line : List UInt8 := []
  data : List (List UInt8) := []
  events : List (List UInt8) := []
  /-- The last byte was a carriage return. -/
  returned : Bool := false
  deriving DecidableEq

/-- At the end of a line. -/
def Reader.endLine (r : Reader) : Reader :=
  if r.line = [] then
    { r with
      data := []
      events := if r.data = [] then r.events else r.events ++ [[lineFeed].intercalate r.data] }
  else { r with line := [], data := r.data ++ (dataOf r.line).toList }

def Reader.feed (r : Reader) (b : UInt8) : Reader :=
  if b = lineFeed then
    -- the second half of a line end
    if r.returned then { r with returned := false } else r.endLine
  else if b = carriageReturn then { r.endLine with returned := true }
  else { r with line := r.line ++ [b], returned := false }

def read (bs : List UInt8) : Reader := bs.foldl Reader.feed {}

/-- The events a stream has dispatched. -/
def events (bs : List UInt8) : List (List UInt8) := (read bs).events

/-! ## Events stay -/

theorem endLine_events (r : Reader) : r.events <+: r.endLine.events := by
  unfold Reader.endLine
  split
  next =>
    show r.events <+: if r.data = [] then r.events else r.events ++ [[lineFeed].intercalate r.data]
    split
    next => exact List.prefix_refl _
    next => exact List.prefix_append _ _
  next => exact List.prefix_refl _

theorem feed_events (r : Reader) (b : UInt8) : r.events <+: (r.feed b).events := by
  unfold Reader.feed
  split
  next =>
    split
    next => exact List.prefix_refl _
    next => exact endLine_events r
  next =>
    split
    next => exact endLine_events r
    next => exact List.prefix_refl _

theorem foldl_events (r : Reader) (bs : List UInt8) :
    r.events <+: (bs.foldl Reader.feed r).events := by
  induction bs generalizing r with
  | nil => exact List.prefix_refl _
  | cons b bs ih => exact (feed_events r b).trans (ih (r.feed b))

/-- **The beginning of a stream has the beginning of its events.** -/
theorem events_prefix {bs cs : List UInt8} (h : bs <+: cs) : events bs <+: events cs := by
  obtain ⟨more, rfl⟩ := h
  unfold events read
  rw [List.foldl_append]
  exact foldl_events _ more

/-! ## Writing -/

/-- An event of one line. -/
def event (data : List UInt8) : List UInt8 :=
  dataName ++ colon :: blank :: (data ++ [lineFeed, lineFeed])

/-- Data that goes on one line. -/
def OneLine (data : List UInt8) : Prop := lineFeed ∉ data ∧ carriageReturn ∉ data

/-- Inside a line. -/
theorem foldl_line {l : List UInt8} (h : OneLine l) (r : Reader) (hr : r.returned = false) :
    l.foldl Reader.feed r = { r with line := r.line ++ l } := by
  induction l generalizing r with
  | nil =>
    obtain ⟨line, data, events, returned⟩ := r
    rw [List.foldl_nil, List.append_nil]
  | cons b l ih =>
    obtain ⟨hlf, hcr⟩ := h
    have hlf' := not_or.mp (List.mem_cons.not.mp hlf)
    have hcr' := not_or.mp (List.mem_cons.not.mp hcr)
    have hfeed : r.feed b = { r with line := r.line ++ [b] } := by
      unfold Reader.feed
      rw [if_neg (fun heq => hlf'.1 heq.symm), if_neg (fun heq => hcr'.1 heq.symm)]
      obtain ⟨line, data, events, returned⟩ := r
      cases hr
      rfl
    rw [List.foldl_cons, hfeed, ih ⟨hlf'.2, hcr'.2⟩ { r with line := r.line ++ [b] } hr]
    simp only [List.append_assoc, List.singleton_append]

theorem dataOf_line (data : List UInt8) :
    dataOf (dataName ++ colon :: blank :: data) = some data := by
  have htake : (dataName ++ colon :: blank :: data).takeWhile (· ≠ colon) = dataName := rfl
  have hdrop : (dataName ++ colon :: blank :: data).dropWhile (· ≠ colon) =
      colon :: blank :: data := rfl
  rw [dataOf, htake, hdrop, if_pos rfl]
  rfl

theorem endLine_line {line data : List UInt8} (hne : line ≠ []) (hdata : dataOf line = some data)
    (es : List (List UInt8)) :
    Reader.endLine { line := line, events := es } = { data := [data], events := es } := by
  unfold Reader.endLine
  dsimp only
  rw [if_neg hne, hdata]
  rfl

theorem endLine_blank (data : List UInt8) (es : List (List UInt8)) :
    Reader.endLine { data := [data], events := es } = { events := es ++ [data] } := by
  have hjoin : [lineFeed].intercalate [data] = data := by simp [List.intercalate]
  unfold Reader.endLine
  dsimp only
  rw [if_pos rfl, if_neg (List.cons_ne_nil _ _), hjoin]

theorem feed_lineFeed {r : Reader} (h : r.returned = false) : r.feed lineFeed = r.endLine := by
  rw [Reader.feed, if_pos rfl, h, if_neg Bool.false_ne_true]

/-- An event is read between two events. -/
theorem foldl_event {data : List UInt8} (h : OneLine data) (es : List (List UInt8)) :
    (event data).foldl Reader.feed { events := es } = { events := es ++ [data] } := by
  have hone : OneLine (dataName ++ colon :: blank :: data) := by
    obtain ⟨hlf, hcr⟩ := h
    constructor
    · intro hmem
      rcases List.mem_append.mp hmem with hname | hmem
      · exact absurd hname (by decide)
      rcases List.mem_cons.mp hmem with hcolon | hmem
      · exact absurd hcolon (by decide)
      rcases List.mem_cons.mp hmem with hblank | hmem
      · exact absurd hblank (by decide)
      · exact hlf hmem
    · intro hmem
      rcases List.mem_append.mp hmem with hname | hmem
      · exact absurd hname (by decide)
      rcases List.mem_cons.mp hmem with hcolon | hmem
      · exact absurd hcolon (by decide)
      rcases List.mem_cons.mp hmem with hblank | hmem
      · exact absurd hblank (by decide)
      · exact hcr hmem
  have hcut : event data = (dataName ++ colon :: blank :: data) ++ [lineFeed, lineFeed] := by
    rw [event, List.append_assoc]
    rfl
  have hline := foldl_line hone { events := es } rfl
  rw [List.nil_append] at hline
  rw [hcut, List.foldl_append, hline]
  -- the first line feed ends the line, the second the event
  have hend : Reader.feed { line := dataName ++ colon :: blank :: data, events := es } lineFeed =
      { data := [data], events := es } :=
    (feed_lineFeed rfl).trans (endLine_line (List.cons_ne_nil _ _) (dataOf_line data) es)
  have hdispatch : Reader.feed { data := [data], events := es } lineFeed =
      { events := es ++ [data] } := (feed_lineFeed rfl).trans (endLine_blank data es)
  rw [List.foldl_cons, List.foldl_cons, List.foldl_nil, hend, hdispatch]

theorem foldl_flatMap {ds : List (List UInt8)} (h : ∀ d ∈ ds, OneLine d)
    (es : List (List UInt8)) :
    (ds.flatMap event).foldl Reader.feed { events := es } = { events := es ++ ds } := by
  induction ds generalizing es with
  | nil => rw [List.flatMap_nil, List.foldl_nil, List.append_nil]
  | cons d ds ih =>
    rw [List.flatMap_cons, List.foldl_append, foldl_event (h d List.mem_cons_self),
      ih (fun x hx => h x (List.mem_cons_of_mem d hx)), List.append_assoc, List.singleton_append]

/-- **Events are read as they are written.** -/
theorem events_flatMap {ds : List (List UInt8)} (h : ∀ d ∈ ds, OneLine d) :
    events (ds.flatMap event) = ds := by
  unfold events read
  rw [foldl_flatMap h, List.nil_append]

end Colibri.EventStream
