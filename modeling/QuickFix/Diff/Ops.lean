/-!
# Line differences

A difference between two sequences is a list of **operations**, each covering a run of positions:
a run that is equal in both, a run of the old sequence that is deleted, a run of the new one that
is inserted, or a run replaced by another. Read in order, the operations cover both sequences
from start to end.

`conquer` finds the runs with the divide-and-conquer form of the greedy shortest-edit
search: it strips the common ends, finds the middle snake of an optimal path by searching from
both corners at once, and solves the two halves. `compact` then slides each inserted run
up and down along equal lines, and each change past changes of the other kind, so that runs next
to each other merge, and `mergeChanges` turns each deletion next to an insertion into a
replacement.
-/

namespace QuickFix.Diff

/-- One operation of a difference; positions index the old and the new sequence. -/
inductive Op where
  | equal (oldIndex newIndex len : Nat)
  | delete (oldIndex oldLen newIndex : Nat)
  | insert (oldIndex newIndex newLen : Nat)
  | replace (oldIndex oldLen newIndex newLen : Nat)
  deriving DecidableEq, Repr, Inhabited

namespace Op

/-- The positions of the old sequence that an operation covers. -/
def oldRange : Op → Nat × Nat
  | equal o _ l => (o, o + l)
  | delete o l _ => (o, o + l)
  | insert o _ _ => (o, o)
  | replace o l _ _ => (o, o + l)

/-- The positions of the new sequence that an operation covers. -/
def newRange : Op → Nat × Nat
  | equal _ n l => (n, n + l)
  | delete _ _ n => (n, n)
  | insert _ n l => (n, n + l)
  | replace _ _ n l => (n, n + l)

def isEqual : Op → Bool | equal .. => true | _ => false
def isDelete : Op → Bool | delete .. => true | _ => false
def isInsert : Op → Bool | insert .. => true | _ => false

/-- An operation that covers nothing. -/
def isEmpty : Op → Bool
  | equal _ _ l => l == 0
  | delete _ l _ => l == 0
  | insert _ _ l => l == 0
  | replace _ l _ m => l == 0 && m == 0

/-- Moves the start of an operation by `d` (up when `up`), and its length by `e` (shorter when
`less`). -/
def adjust (d : Nat) (up : Bool) (e : Nat) (less : Bool) : Op → Op
  | equal o n l => equal (mv o d up) (mv n d up) (mv l e less)
  | delete o l n => delete (mv o d up) (mv l e less) (mv n d up)
  | insert o n l => insert (mv o d up) (mv n d up) (mv l e less)
  | r => r
where
  mv (v a : Nat) (down : Bool) : Nat := if down then v - a else v + a

def shiftLeft (a : Nat) (op : Op) : Op := op.adjust a true 0 false
def shiftRight (a : Nat) (op : Op) : Op := op.adjust a false 0 false
def growLeft (a : Nat) (op : Op) : Op := op.adjust a true a false
def growRight (a : Nat) (op : Op) : Op := op.adjust 0 false a false
def shrinkLeft (a : Nat) (op : Op) : Op := op.adjust 0 false a true
def shrinkRight (a : Nat) (op : Op) : Op := op.adjust a false a true

end Op

section Search

variable {α : Type} [BEq α] (old new : Array α)

/-- The length of the common start of two runs. -/
def prefixLen (os oe ns ne : Nat) : Nat :=
  go os ns (min (oe - os) (ne - ns)) 0
where
  go (i j : Nat) : Nat → Nat → Nat
    | 0, acc => acc
    | fuel + 1, acc => if old[i]? == new[j]? then go (i + 1) (j + 1) fuel (acc + 1) else acc

/-- The length of the common end of two runs. -/
def suffixLen (os oe ns ne : Nat) : Nat :=
  go oe ne (min (oe - os) (ne - ns)) 0
where
  go (i j : Nat) : Nat → Nat → Nat
    | 0, acc => acc
    | fuel + 1, acc => if old[i - 1]? == new[j - 1]? then go (i - 1) (j - 1) fuel (acc + 1) else acc

/-- The most edits a middle snake search looks at. -/
def maxD (n m : Nat) : Nat := (n + m + 1) / 2 + 1

/-- The start of the middle snake of an optimal path between two runs, searched from both
corners at once. -/
def middleSnake (os oe ns ne : Nat) : Option (Nat × Nat) := Id.run do
  let n := oe - os
  let m := ne - ns
  let delta : Int := n - m
  let odd := delta % 2 == 1 || delta % 2 == -1
  let dMax := maxD n m
  let off : Int := dMax + 1
  let size := 2 * dMax + 3
  let mut vf : Array Int := Array.replicate size 0
  let mut vb : Array Int := Array.replicate size 0
  let at_ := fun (k : Int) => (k + off).toNat
  for d in [0:dMax] do
    let d : Int := d
    for i in [0:(2 * d + 1).toNat] do
      if i % 2 == 0 then
        let k : Int := d - i
        let x0 : Int := if k == -d || (k != d && vf[at_ (k - 1)]! < vf[at_ (k + 1)]!)
          then vf[at_ (k + 1)]! else vf[at_ (k - 1)]! + 1
        let y0 : Int := x0 - k
        let mut x := x0
        if x0 < n && 0 ≤ y0 && y0 < m then
          x := x0 + prefixLen old new (os + x0.toNat) oe (ns + y0.toNat) ne
        vf := vf.set! (at_ k) x
        if odd && (k - delta).natAbs ≤ d - 1 && d ≥ 1 then
          if x + vb[at_ (-(k - delta))]! ≥ n then
            return some ((x0 + os).toNat, (y0 + ns).toNat)
    for i in [0:(2 * d + 1).toNat] do
      if i % 2 == 0 then
        let k : Int := d - i
        let x0 : Int := if k == -d || (k != d && vb[at_ (k - 1)]! < vb[at_ (k + 1)]!)
          then vb[at_ (k + 1)]! else vb[at_ (k - 1)]! + 1
        let y0 : Int := x0 - k
        let mut x := x0
        let mut y := y0
        if x0 < n && 0 ≤ y0 && y0 < m then
          let adv := suffixLen old new os (os + n - x0.toNat) ns (ns + m - y0.toNat)
          x := x0 + adv
          y := y0 + adv
        vb := vb.set! (at_ k) x
        if !odd && (k - delta).natAbs ≤ d then
          if x + vf[at_ (-(k - delta))]! ≥ n then
            return some ((n - x + os).toNat, (m - y + ns).toNat)
  return none

/-- The operations between two runs: common ends, and between them either a deletion, an
insertion, or the two halves around the middle snake. -/
def conquer : Nat → Nat → Nat → Nat → Nat → List Op
  | fuel, os, oe, ns, ne =>
    let pre := prefixLen old new os oe ns ne
    let head := if pre > 0 then [Op.equal os ns pre] else []
    let os := os + pre
    let ns := ns + pre
    let suf := suffixLen old new os oe ns ne
    let tail := if suf > 0 then [Op.equal (oe - suf) (ne - suf) suf] else []
    let oe := oe - suf
    let ne := ne - suf
    let middle :=
      if os ≥ oe && ns ≥ ne then []
      else if ns ≥ ne then [Op.delete os (oe - os) ns]
      else if os ≥ oe then [Op.insert os ns (ne - ns)]
      else match fuel, middleSnake old new os oe ns ne with
        | fuel + 1, some (x, y) => conquer fuel os x ns y ++ conquer fuel x oe y ne
        | _, _ => [Op.delete os (oe - os) ns, Op.insert os ns (ne - ns)]
    head ++ middle ++ tail

end Search

/-! ### Sliding runs together -/

section Compact

variable {α : Type} [BEq α] (old new : Array α)

/-- The run an operation changes: inserted lines of the new sequence, deleted ones of the old. -/
def changed (op : Op) : Nat × Nat := if op.isInsert then op.newRange else op.oldRange

/-- Slides the change at `p` up past the equal lines before it, as many as end with the new
lines it covers, and past changes of the other kind; it merges with a change of its own kind.
A deletion covers no new lines, so it slides past no equal line. Returns the operations and the
new place of the change. -/
def shiftUp (fuel : Nat) (ops : Array Op) (p : Nat) : Array Op × Nat := Id.run do
  let mut ops := ops
  let mut p := p
  for _ in [0:fuel] do
    if p = 0 then break
    let this := ops[p]!
    let prev := ops[p - 1]!
    if prev.isEqual then
      let s := suffixLen old new prev.oldRange.1 prev.oldRange.2 this.newRange.1 this.newRange.2
      if s > 0 then
        if (ops[p + 1]?.map Op.isEqual).getD false then
          ops := ops.modify (p + 1) (·.growLeft s)
        else
          ops := ops.insertIdxIfInBounds (p + 1)
            (Op.equal (prev.oldRange.2 - s) (this.newRange.2 - s) s)
        ops := ops.modify p (·.shiftLeft s)
        ops := ops.modify (p - 1) (·.shrinkLeft s)
        if ops[p - 1]!.isEmpty then
          ops := ops.eraseIdxIfInBounds (p - 1)
          p := p - 1
      else if prev.isEmpty then
        ops := ops.eraseIdxIfInBounds (p - 1)
        p := p - 1
      else break
    else if this.isInsert != prev.isInsert then
      ops := ops.swapIfInBounds (p - 1) p
      p := p - 1
    else
      let grow := (changed this).2 - (changed this).1
      ops := ops.modify (p - 1) (·.growRight grow)
      ops := ops.eraseIdxIfInBounds p
      p := p - 1
  return (ops, p)

/-- Slides the change at `p` down past the equal lines after it, as many as start with the new
lines it covers, and past changes of the other kind; it merges with a change of its own kind. -/
def shiftDown (fuel : Nat) (ops : Array Op) (p : Nat) : Array Op × Nat := Id.run do
  let mut ops := ops
  let mut p := p
  for _ in [0:fuel] do
    if p + 1 ≥ ops.size then break
    let this := ops[p]!
    let next := ops[p + 1]!
    if next.isEqual then
      let s := prefixLen old new next.oldRange.1 next.oldRange.2 this.newRange.1 this.newRange.2
      if s > 0 then
        if p > 0 && ops[p - 1]!.isEqual then
          ops := ops.modify (p - 1) (·.growRight s)
        else
          ops := ops.insertIdxIfInBounds p (Op.equal next.oldRange.1 this.newRange.1 s)
          p := p + 1
        ops := ops.modify p (·.shiftRight s)
        ops := ops.modify (p + 1) (·.shrinkRight s)
        if ops[p + 1]!.isEmpty then
          ops := ops.eraseIdxIfInBounds (p + 1)
      else if next.isEmpty then
        ops := ops.eraseIdxIfInBounds (p + 1)
      else break
    else if this.isInsert != next.isInsert then
      ops := ops.swapIfInBounds p (p + 1)
      p := p + 1
    else
      let grow := (changed next).2 - (changed next).1
      ops := ops.modify p (·.growRight grow)
      ops := ops.eraseIdxIfInBounds (p + 1)
  return (ops, p)

/-- Slides every deletion, then every insertion, up and then down. -/
def compact (ops : List Op) : List Op := Id.run do
  let fuel := 4 * (ops.length + old.size + new.size) + 4
  let mut arr := ops.toArray
  for pass in [0:2] do
    let wanted := fun (op : Op) => if pass == 0 then op.isDelete else op.isInsert
    let mut p := 0
    for _ in [0:fuel] do
      if p ≥ arr.size then break
      if wanted arr[p]! then
        let (a, q) := shiftUp old new fuel arr p
        let (a, q) := shiftDown old new fuel a q
        arr := a
        p := q
      p := p + 1
  return arr.toList

end Compact

/-- Joins runs of one kind that follow each other, and a deletion with the insertion next to
it (in either order) into a replacement. -/
def mergeChanges (ops : List Op) : List Op :=
  let (out, del, ins, eq) := ops.foldl step ([], none, none, none)
  (flush (flushEq out eq) del ins).reverse
where
  flushEq (out : List Op) : Option Op → List Op
    | some e => e :: out
    | none => out
  flush (out : List Op) : Option (Nat × Nat × Nat) → Option (Nat × Nat × Nat) → List Op
    | some (o, l, _), some (_, ni, nl) => Op.replace o l ni nl :: out
    | some (o, l, n), none => Op.delete o l n :: out
    | none, some (o, n, l) => Op.insert o n l :: out
    | none, none => out
  step : List Op × Option (Nat × Nat × Nat) × Option (Nat × Nat × Nat) × Option Op → Op →
      List Op × Option (Nat × Nat × Nat) × Option (Nat × Nat × Nat) × Option Op
    | (out, del, ins, eq), .equal o n l =>
      let out := flush out del ins
      let eq := match eq with
        | some (.equal eo en el) => some (.equal eo en (el + l))
        | _ => some (.equal o n l)
      (out, none, none, eq)
    | (out, del, ins, eq), .delete o l n =>
      let out := flushEq out eq
      let del := match del with
        | some (d0, dl, dn) => some (d0, dl + l, dn)
        | none => some (o, l, n)
      (out, del, ins, none)
    | (out, del, ins, eq), .insert o n l =>
      let out := flushEq out eq
      let ins := match ins with
        | some (io, inn, il) => some (io, inn, il + l)
        | none => some (o, n, l)
      (out, del, ins, none)
    | (out, del, ins, eq), op => (op :: flush (flushEq out eq) del ins, none, none, none)

/-- The difference between two sequences of lines. -/
def diffLines {α : Type} [BEq α] (old new : Array α) : List Op :=
  let raw := conquer old new (old.size + new.size + 1) 0 old.size 0 new.size
  mergeChanges (compact old new raw)

end QuickFix.Diff
