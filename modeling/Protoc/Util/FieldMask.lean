import Mathlib.Data.List.Lex
import Protoc.Lib.PathTree
import Protoc.Lib.Segments

/-!
# Field masks

A mask is a list of paths, and a path a string of field names with dots between them.  The
operations on masks build a `FieldMaskTree`, whose leaves are paths.
-/

namespace Protoc.Util

open Protoc.Lib PathTree

/-- Bytes are compared as numbers. -/
instance linearOrderUInt8 : LinearOrder UInt8 where
  le_refl := UInt8.le_refl
  le_trans _ _ _ := UInt8.le_trans
  le_antisymm _ _ := UInt8.le_antisymm
  le_total := UInt8.le_total
  lt_iff_le_not_ge a b := by
    rw [UInt8.lt_iff_toNat_lt, UInt8.le_iff_toNat_le, UInt8.le_iff_toNat_le]
    omega
  toDecidableLE := inferInstance

abbrev Str := List UInt8

abbrev FieldMask := List Str

/-- `FieldMaskTree::Node`, with the children in the order of the map. -/
abbrev Node := PathTree Str

def dot : UInt8 := 46

/-! ## The tree -/

/-- The loop of `AddPath` from a node on; `parts` are still to come. -/
def addParts (newBranch isRoot : Bool) : List Str → Node → Node
  | [], _ => .empty
  | nodeName :: parts, node =>
    -- a leaf that covers the path is left alone
    if newBranch = false ∧ isRoot = false ∧ node = .empty then node
    else
      match find nodeName node with
      | none => set nodeName (addParts true false parts .empty) node
      | some result => set nodeName (addParts newBranch false parts result) node

/-- `AddPath`. -/
def addPath (path : Str) (root : Node) : Node :=
  let parts := split dot path
  if parts = [] then root else addParts false true parts root

/-- `MergeFromFieldMask`. -/
def mergeFromFieldMask (mask : FieldMask) (root : Node) : Node :=
  mask.foldl (fun root path => addPath path root) root

def currentPath (pre name : Str) : Str := if pre = [] then name else pre ++ dot :: name

/-- `MergeToFieldMask` for the children of a node that is no leaf. -/
def mergeChildrenToFieldMask (pre : Str) : Node → FieldMask
  | .empty => []
  | .child name node next =>
    let cur := currentPath pre name
    (if node = .empty then (if cur = [] then [] else [cur])
      else mergeChildrenToFieldMask cur node) ++ mergeChildrenToFieldMask pre next

/-- `MergeToFieldMask`: the paths added to the mask. -/
def mergeToFieldMask (pre : Str) (node : Node) : FieldMask :=
  if node = .empty then (if pre = [] then [] else [pre]) else mergeChildrenToFieldMask pre node

/-- `MergeLeafNodesToTree` for the children of a node. -/
def mergeChildrenToTree (pre : Str) : Node → Node → Node
  | .empty, out => out
  | .child name node next, out =>
    let cur := currentPath pre name
    let out := if node = .empty then addPath cur out else out
    mergeChildrenToTree pre next (mergeChildrenToTree cur node out)

/-- `MergeLeafNodesToTree`. -/
def mergeLeafNodesToTree (pre : Str) (node out : Node) : Node :=
  mergeChildrenToTree pre node (if node = .empty then addPath pre out else out)

/-- The loop of `IntersectPath` from a node on. -/
def intersectParts (path : Str) (isRoot : Bool) : List Str → Node → Node → Node
  | [], node, out => mergeLeafNodesToTree path node out
  | nodeName :: parts, node, out =>
    if node = .empty then (if isRoot then out else addPath path out)
    else
      match find nodeName node with
      | none => out
      | some result => intersectParts path false parts result out

/-- `IntersectPath`: the intersection is added to `out`. -/
def intersectPath (path : Str) (root out : Node) : Node :=
  let parts := split dot path
  if parts = [] then out else intersectParts path true parts root out

/-! ## The operations on masks -/

/-- `ToCanonicalForm`. -/
def toCanonicalForm (mask : FieldMask) : FieldMask :=
  mergeToFieldMask [] (mergeFromFieldMask mask .empty)

/-- `Union`. -/
def union (mask₁ mask₂ : FieldMask) : FieldMask :=
  mergeToFieldMask [] (mergeFromFieldMask mask₂ (mergeFromFieldMask mask₁ .empty))

/-- `Intersect`. -/
def intersect (mask₁ mask₂ : FieldMask) : FieldMask :=
  let tree := mergeFromFieldMask mask₁ .empty
  mergeToFieldMask [] (mask₂.foldl (fun out path => intersectPath path tree out) .empty)

/-- `IsPathInFieldMask`. -/
def isPathInFieldMask (path : Str) : FieldMask → Bool
  | [] => false
  | maskPath :: rest =>
    if path = maskPath then true
    else if maskPath.length < path.length ∧
        path.take (maskPath.length + 1) = maskPath ++ [dot] then true
    else isPathInFieldMask path rest

end Protoc.Util
