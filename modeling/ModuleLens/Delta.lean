import ModuleLens.Text.Point

/-! The difference of two texts as one replaced stretch.  The stretch is what remains when the
common prefix and then the common suffix of the rests are taken away; its ends are given in bytes
and as points, a row and a byte column. -/

namespace ModuleLens

/-- One replaced stretch: where it starts, where it ended and where it ends now. -/
structure Delta where
  start : Nat
  oldEnd : Nat
  newEnd : Nat
  startPoint : Point
  oldEndPoint : Point
  newEndPoint : Point
deriving DecidableEq, Repr

namespace Delta

def between (old new : Text) : Option Delta :=
  if old = new then none
  else
    let shared := old.commonPrefix new
    let oldRest := old.drop shared.length
    let newRest := new.drop shared.length
    let tail := Text.commonPrefix oldRest.reverse newRest.reverse
    let removed := oldRest.take (oldRest.length - tail.length)
    let inserted := newRest.take (newRest.length - tail.length)
    let start := shared.byteLength
    let startPoint := Point.ofOffset old start
    some
      { start
        oldEnd := start + Text.byteLength removed
        newEnd := start + Text.byteLength inserted
        startPoint
        oldEndPoint := startPoint.after removed
        newEndPoint := startPoint.after inserted }

end Delta

end ModuleLens
