import TagCodec.Proofs.PlainReading
import TagCodec.Proofs.Transcript

namespace TagCodec

open Steps

/-- What can be asked of a registry. -/
inductive Operation
  | lookup (q : Query)
  /-- Writes behind what is there. -/
  | write (v : Value) (out : Output)
  | read (input : Cursor) (depth fresh : Nat)
  | constantTag (v : Value)
  | constantAt (t : Tag)
  | layout
  | names
  /-- Asks for a draft with the same entries. -/
  | draft

/-- What comes of an operation. -/
inductive Outcome
  | found (answer : Except LookupError Binding)
  | written (out : Output) (answer : Except CodingError Unit)
  | read (input : Cursor) (depth fresh : Nat) (answer : Except CodingError Value)
  | constantTag (t? : Option Tag)
  | constantAt (v? : Option Value)
  | layout (l : Layout)
  | names (ns : Names)
  | draft (d : Draft)

/-- An operation, with the resolver and the factory as they answer at its time. -/
structure Turn where
  fallback : Fallback
  operation : Operation

namespace Registry

/-- What comes of an operation, and the memo behind it. -/
def perform (r : Registry) (op : Operation) (m : Memo) : Outcome × Memo :=
  match op with
  | .lookup q => (.found (result (r.ask q) m), after (r.ask q) m)
  | .write v out =>
    let s := after (r.write v) ⟨out, m⟩
    (.written s.out (result (r.write v) ⟨out, m⟩), s.memo)
  | .read input depth fresh =>
    let s := after r.read ⟨input, depth, fresh, m⟩
    (.read s.input s.depth s.fresh (result r.read ⟨input, depth, fresh, m⟩), s.memo)
  | .constantTag v => (.constantTag (r.constantTag? v), m)
  | .constantAt t => (.constantAt (r.constantAt? t), m)
  | .layout => (.layout r.layout, m)
  | .names => (.names r.names, m)
  | .draft => (.draft r.toDraft, m)

/-- What comes of an operation of a registry that keeps nothing, given what comes of each name. -/
def plainly (r : Registry) (made : String → Option Format) : Operation → Outcome
  | .lookup q => .found (r.answer made q)
  | .write v out =>
    let x := r.transcript made v
    .written (x.items.foldl Output.put out) x.outcome
  | .read input depth fresh =>
    let start : Reader := ⟨input, fresh, []⟩
    let read := r.plainRead made (nestingLimit - depth)
    .read (after read start).input depth (after read start).fresh (result read start)
  | .constantTag v => .constantTag (r.constantTag? v)
  | .constantAt t => .constantAt (r.constantAt? t)
  | .layout => .layout r.layout
  | .names => .names r.names
  | .draft => .draft r.toDraft

/-- The lookups that an operation makes, those for values inside other values included. -/
def calls (r : Registry) (made : String → Option Format) : Operation → List Query
  | .lookup q => [q]
  | .write v _ => (r.transcript made v).calls
  | .read input depth fresh =>
    (after (r.plainRead made (nestingLimit - depth)) ⟨input, fresh, []⟩).calls
  | _ => []

theorem plainly_under (r : Registry) (b : Fallback) (made : String → Option Format)
    (other : op ≠ .draft) : (r.under b).plainly made op = r.plainly made op := by
  cases op with
  | write v out => simp only [plainly, r.transcript_under b]
  | read input depth fresh => simp only [plainly, r.plainRead_under b]
  | draft => exact absurd rfl other
  | _ => rfl

theorem read_plainly (r : Registry) (input : Cursor) (depth fresh : Nat) (m : Memo) :
    r.read ⟨input, depth, fresh, m⟩ = mapState (·.decoder r depth m)
      (r.plainRead (r.fallback.settled m) (nestingLimit - depth) ⟨input, fresh, []⟩) :=
  r.readWithin_follows (nestingLimit - depth) ⟨input, fresh, []⟩ depth m rfl

theorem perform_eq (r : Registry) (op : Operation) (m : Memo) :
    r.perform op m = (r.plainly (r.fallback.settled m) op,
      r.heard (r.calls (r.fallback.settled m) op) m) := by
  cases op with
  | lookup q =>
    simp only [perform, plainly, calls, result_of_leaving (r.ask_eq q m)]
    rfl
  | write v out =>
    have written := r.write_eq v ⟨out, m⟩
    simp only [perform, plainly, calls, result_of_leaving written, after_of_leaving written]
  | read input depth fresh =>
    have read := r.read_plainly input depth fresh m
    simp only [perform, plainly, calls, result, after]
    rw [read]
    cases r.plainRead (r.fallback.settled m) (nestingLimit - depth) ⟨input, fresh, []⟩ <;> rfl
  | _ => rfl

/-- A turn is played with the resolver and the factory of its time. -/
def play (r : Registry) (x : Turn) (m : Memo) : Outcome × Memo :=
  (r.under x.fallback).perform x.operation m

/-- What comes of each turn, and the memo behind the last. -/
def run (r : Registry) : List Turn → Memo → List Outcome × Memo
  | [], m => ([], m)
  | x :: xs, m => ((r.play x m).1 :: (r.run xs (r.play x m).2).1, (r.run xs (r.play x m).2).2)

/-- Turns in which resolver and factory give the same answers as ever. -/
def steadily (r : Registry) (ops : List Operation) : List Turn := ops.map (Turn.mk r.fallback)

theorem run_append (r : Registry) (xs ys : List Turn) (m : Memo) :
    r.run (xs ++ ys) m =
      ((r.run xs m).1 ++ (r.run ys (r.run xs m).2).1, (r.run ys (r.run xs m).2).2) := by
  induction xs generalizing m with
  | nil => rfl
  | cons x xs ih => simp only [List.cons_append, run, ih]

theorem run_steadily (r : Registry) (ops : List Operation) (m : Memo) :
    r.run (r.steadily ops) m = (ops.map (r.plainly (r.fallback.settled m)),
      r.heard (ops.flatMap (r.calls (r.fallback.settled m))) m) := by
  induction ops generalizing m with
  | nil => rfl
  | cons op ops ih =>
    have here : r.play ⟨r.fallback, op⟩ m = _ := r.perform_eq op m
    have kept := r.settled_heard (r.calls (r.fallback.settled m) op) m
    simp only [steadily, List.map_cons, run, here, List.flatMap_cons, heard_append]
    have rest := ih (r.heard (r.calls (r.fallback.settled m) op) m)
    rw [kept] at rest
    rw [← steadily, rest]

theorem settled_run (r : Registry) (ops : List Operation) :
    r.fallback.settled (r.run (r.steadily ops) r.start).2 = r.fallback.made := by
  rw [run_steadily, settled_heard]
  rfl

end Registry

end TagCodec
