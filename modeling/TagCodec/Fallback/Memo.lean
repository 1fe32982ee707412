import TagCodec.CodingError
import TagCodec.Fallback.Event
import TagCodec.Format.Basic

namespace TagCodec

structure Resolver where
  counter : Option String
  find : String → Except ConstructionError Class

namespace Resolver

def ofClassPath (p : ClassPath) : Resolver := ⟨none, p.resolve⟩

/-- Looks a name up among `aliases` before anything else. -/
def withAliases (r : Resolver) (aliases : List (String × Class)) : Resolver :=
  { r with find := fun name =>
      match aliases.lookup name with
      | some c => .ok c
      | none => r.find name }

end Resolver

/-- Makes formats, for the classes that declare an enumeration and for all others. -/
structure Factory where
  counter : Option String
  forEnumeration : Class → Except ConstructionError Format
  forRecord : Class → Except ConstructionError Format

namespace Factory

def standard : Factory := ⟨none, Format.ordinalOf, Format.fieldsOf⟩

/-- Takes enumerations for records and the reverse, so that it makes no format at all. -/
def swapped : Factory := ⟨none, Format.fieldsOf, Format.ordinalOf⟩

/-- Calls one of the two, and tells whether it was the one for enumerations. -/
def call (f : Factory) (c : Class) : Except ConstructionError Format × Bool :=
  if c.enumeration?.isSome then (f.forEnumeration c, true) else (f.forRecord c, false)

def make (f : Factory) (c : Class) : Except ConstructionError Format := (f.call c).1

theorem make_eq (f : Factory) (c : Class) :
    f.make c = if c.enumeration?.isSome then f.forEnumeration c else f.forRecord c := by
  unfold make call
  split <;> rfl

theorem call_eq (f : Factory) (c : Class) : f.call c = (f.make c, c.enumeration?.isSome) := by
  unfold make call
  split
  · rename_i declares
    rw [declares]
  · rename_i other
    rw [Bool.eq_false_iff.mpr other]

end Factory

/-- How codecs come about for the classes that none was registered for. -/
structure Fallback where
  resolver : Resolver
  factory : Factory

/-- Finds no class. -/
def Fallback.none : Fallback := ⟨.ofClassPath .empty, .standard⟩

/-- What a registry has learnt: for each name tried the format made, or that there is none. -/
structure Memo where
  cells : List (String × Option Format)
  trace : List Event
deriving DecidableEq

namespace Memo

def empty : Memo := ⟨[], []⟩

def cell? (m : Memo) (name : String) : Option (Option Format) := m.cells.lookup name

/-- Fills a cell that was empty. -/
def fill (m : Memo) (name : String) (cell : Option Format) (events : List Event) : Memo :=
  ⟨(name, cell) :: m.cells, m.trace ++ events⟩

theorem cell_fill (m : Memo) (name n : String) (cell : Option Format) (events : List Event) :
    (m.fill name cell events).cell? n = if n = name then some cell else m.cell? n := by
  by_cases h : n = name
  · simp [fill, cell?, h]
  · simp [fill, cell?, List.lookup_cons, h, beq_false_of_ne h]

end Memo

/-- A lookup may have to build a codec first, and leaves it in the memo. -/
abbrev Lookup (α : Type) := EStateM LookupError Memo α

namespace Fallback

/-- One attempt: the resolver is asked, and the factory called for the class that it finds. -/
def attempt (b : Fallback) (name : String) : Except ConstructionError Format × List Event :=
  let asked := Event.asked b.resolver.counter name
  match b.resolver.find name with
  | .ok c =>
    let (made, asEnumeration) := b.factory.call c
    (made, [asked, .called b.factory.counter name asEnumeration])
  | .error reason => (.error reason, [asked])

/-- An attempt at a codec that is to have the tag `t`, with a last event that tells how it went. -/
def create (b : Fallback) (name : String) (t : Tag) :
    Except ConstructionError Format × List Event :=
  let (outcome, calls) := b.attempt name
  (outcome, calls ++ [.outcome name t outcome])

/-- What comes of an attempt, under any tag. -/
def construct (b : Fallback) (name : String) : Except ConstructionError Format := (b.attempt name).1

def eventsOf (b : Fallback) (name : String) (t : Tag) : List Event := (b.create name t).2

section

variable {b : Fallback} {name : String}

theorem construct_of_found (h : b.resolver.find name = .ok c) :
    b.construct name = b.factory.make c := by
  simp only [construct, attempt, h, Factory.call_eq]

theorem construct_of_missing (h : b.resolver.find name = .error e) :
    b.construct name = .error e := by
  simp only [construct, attempt, h]

theorem eventsOf_of_found (h : b.resolver.find name = .ok c) (t : Tag) :
    b.eventsOf name t = [.asked b.resolver.counter name,
      .called b.factory.counter name c.enumeration?.isSome,
      .outcome name t (b.factory.make c)] := by
  simp only [eventsOf, create, attempt, h, Factory.call_eq, List.cons_append, List.nil_append]

theorem eventsOf_of_missing (h : b.resolver.find name = .error e) (t : Tag) :
    b.eventsOf name t = [.asked b.resolver.counter name, .failed name t e] := by
  simp only [eventsOf, create, attempt, h, List.cons_append, List.nil_append, Event.outcome]

end

def answer (name : String) : Option Format → Lookup Format
  | some f => pure f
  | Option.none => throw (.constructionFailed name)

/-- The format for a name, from the memo or else from an attempt, which is the only one. -/
def get (b : Fallback) (name : String) (t : Tag) : Lookup Format := fun m =>
  match m.cell? name with
  | some cell => answer name cell m
  | Option.none =>
    let (outcome, events) := b.create name t
    answer name outcome.toOption (m.fill name outcome.toOption events)

theorem get_of_empty {m : Memo} (b : Fallback) (t : Tag) (h : m.cell? name = Option.none) :
    b.get name t m = answer name (b.construct name).toOption
      (m.fill name (b.construct name).toOption (b.eventsOf name t)) := by
  simp only [get, h]
  rfl

theorem get_of_cell {m : Memo} {cell : Option Format} (b : Fallback) (t : Tag)
    (h : m.cell? name = some cell) : b.get name t m = answer name cell m := by
  simp only [get, h]

end Fallback

end TagCodec
