import CspModel.Layout.Basic

/-! # Windows over one list

The arguments of the members of a slide are windows over a list if all windows
have one width, every window is a stretch of the list, and each begins a fixed
offset after the one before.  The list is read off the windows: it holds their
variables in the order of their first occurrences.  The last windows may wrap
around to the start of the list, which makes the slide circular.
-/
namespace CspModel

/-- The variable of a parameter. -/
def Parameter.toVariable? : Parameter → Option Variable
  | var v => some v
  | _ => none

/-- Windows recognised over one list. -/
structure Sliding where
  list : List Variable
  /-- How much further on a window begins than the one before it. -/
  offset : Nat
  /-- Whether windows go on at the start of the list. -/
  circular : Bool
deriving DecidableEq

namespace Sliding

/-- The entry of the list at a position, which wraps around when circular. -/
def entryAt (s : Sliding) (position : Nat) : Option Variable :=
  s.list[if s.circular then position % s.list.length else position]?

/-- Whether the windows are stretches of the list, each one offset further on. -/
def fits (s : Sliding) (windows : List (List Variable)) : Bool :=
  windows.zipIdx.all fun (window, number) =>
    window.zipIdx.all fun (v, position) => s.entryAt (number * s.offset + position) == some v

/-- The offset between the first two windows: the position at which the second begins
within the first, or the whole width when they have nothing in common. -/
def offset? (first second : List Variable) : Option Nat :=
  match second.head? with
  | none => none
  | some start =>
    match first.findIdx? (· == start) with
    | some 0 => none
    | some position => some position
    | none => some first.length

/-- The list, the offset and the wrapping of windows, if they are recognised. -/
def ofWindows? (windows : List (List Variable)) : Option Sliding :=
  match windows with
  | [] => none
  | first :: rest =>
    if first.isEmpty || rest.any (·.length != first.length) then none
    else
      let list := windows.flatten.eraseDups
      let offset := match rest with
        | [] => some 1
        | second :: _ => offset? first second
      offset.bind fun offset =>
        [false, true].findSome? fun circular =>
          let sliding : Sliding := ⟨list, offset, circular⟩
          if sliding.fits windows then some sliding else none

/-- The windows that arguments form when all of them are variables. -/
def ofArguments? (arguments : List (List Parameter)) : Option Sliding :=
  (arguments.mapM (List.mapM Parameter.toVariable?)).bind ofWindows?

end Sliding
end CspModel
