import BrbFramework.Lib.Runs
import Mathlib.Logic.Function.Basic

/-!
# `RadixTree`

The tree that keeps network prefixes, with the nodes in a heap, so that a
pointer to a freed node and a null pointer stop the model, and so do a loop that
does not end and a search that runs over its stack.

A prefix is a value here: the tree keeps a copy or takes a reference, and in
either case what it holds has the family, the length and the bits of the prefix
it was given. Reference counts and failing allocations are left out.
-/

namespace BrbData

open Handler Runs

/-- The address families that `RadixPrefixInit` and `RadixPrefixNew` take. -/
inductive Family
  | inet
  | inet6
  deriving DecidableEq, Repr

def Family.bytes : Family → Nat
  | .inet => 4
  | .inet6 => 16

/-- The `maxprefix` of `RadixPrefixFromBlob`. -/
def Family.maxprefix : Family → Nat
  | .inet => 32
  | .inet6 => 128

/-- A prefix of one of the two families, which is no longer than its address. -/
structure RadixPrefix where
  family : Family
  bitlen : Nat
  add : List UInt8
  add_length : add.length = family.bytes
  bitlen_le : bitlen ≤ family.maxprefix
  deriving DecidableEq, Repr

/-- `RADIX_PREFIX_TO_UCHAR`. The union has sixteen bytes, of which those behind
an IPv4 address are zero. -/
def RadixPrefix.uchar (p : RadixPrefix) (i : Nat) : UInt8 := p.add.getD i 0

/-- `Ref_Prefix`: a copy of a static prefix, or one more reference. -/
def refPrefix (p : RadixPrefix) : RadixPrefix := p

structure RadixNode where
  bit : Nat
  /-- `prefix`, null in a glue node. -/
  pfx : Option RadixPrefix
  l : Option Nat := none
  r : Option Nat := none
  parent : Option Nat := none
  data : Option Nat := none
  deriving DecidableEq, Repr

structure RadixTree where
  head : Option Nat
  maxbits : Nat
  numActiveNode : Int
  /-- The nodes that are allocated, by their addresses. -/
  nodes : Nat → Option RadixNode
  /-- The nodes that were made, which is the next address. -/
  made : Nat

namespace RadixTree

/-- `RADIX_MAXBITS`. -/
def radixMaxbits : Nat := 128

inductive Fault
  /-- A null pointer is followed. -/
  | null
  /-- A pointer to a freed node is followed. -/
  | freed
  /-- A loop goes on after a step for each bit. -/
  | hung
  /-- A search pushes a node over the end of its stack. -/
  | overflow
  deriving DecidableEq, Repr

abbrev M := EStateM Fault RadixTree

/-- `RadixTreeNew`. -/
def new : RadixTree where
  head := none
  maxbits := 128
  numActiveNode := 0
  nodes := fun _ => none
  made := 0

/-- `BIT_TEST(addr[bit >> 3], 0x80 >> (bit & 0x07))`. -/
def bitTest (addr : Nat → UInt8) (bit : Nat) : Bool :=
  addr (bit >>> 3) &&& ((0x80 : UInt8) >>> UInt8.ofNat (bit &&& 0x07)) != 0

/-- `comp_with_mask`, whose `m` has the upper `mask % 8` bits of a byte. -/
def compWithMask (addr dest : Nat → UInt8) (mask : Nat) : Bool :=
  let n := mask / 8
  let m : UInt8 := 0xff <<< UInt8.ofNat (8 - mask % 8)
  (List.range n).all (fun i => addr i == dest i) &&
    (mask % 8 == 0 || addr n &&& m == dest n &&& m)

def node (ptr : Nat) : M RadixNode := do
  match (← get).nodes ptr with
  | none => throw .freed
  | some x => return x

def follow (ptr : Option Nat) : M Nat :=
  match ptr with
  | none => throw .null
  | some i => return i

def modifyNode (ptr : Nat) (f : RadixNode → RadixNode) : M PUnit := do
  let x ← node ptr
  modify fun s => { s with nodes := Function.update s.nodes ptr (some (f x)) }

/-- `malloc` and the counter of the nodes. -/
def malloc (x : RadixNode) : M Nat := do
  let s ← get
  set { s with
    nodes := Function.update s.nodes s.made (some x)
    made := s.made + 1
    numActiveNode := s.numActiveNode + 1 }
  return s.made

/-- `free` and the counter of the nodes. -/
def free (ptr : Nat) : M PUnit :=
  modify fun s => { s with
    nodes := Function.update s.nodes ptr none
    numActiveNode := s.numActiveNode - 1 }

/-- The pointer to `node` in `parent`, or in the tree where there is no parent,
is set to `new`. -/
def relink (parent : Option Nat) (node : Nat) (new : Option Nat) : M PUnit := do
  match parent with
  | none => modify fun s => { s with head := new }
  | some parent =>
    modifyNode parent fun y => if y.r = some node then { y with r := new } else { y with l := new }

/-- The loop of `RadixTreeSearchExact`. -/
def searchExactLoop (addr : Nat → UInt8) (bitlen : Nat) : Nat → Nat → M (Option Nat)
  | 0, _ => throw .hung
  | fuel + 1, ptr => do
    let x ← node ptr
    if x.bit < bitlen then
      match if bitTest addr x.bit then x.r else x.l with
      | none => return none
      | some child => searchExactLoop addr bitlen fuel child
    else return some ptr

/-- `RadixTreeSearchExact`. -/
def searchExact (pfx : RadixPrefix) : M (Option Nat) := do
  match (← get).head with
  | none => return none
  | some head =>
    match ← searchExactLoop pfx.uchar pfx.bitlen (radixMaxbits + 1) head with
    | none => return none
    | some ptr =>
      let x ← node ptr
      if x.bit > pfx.bitlen then return none
      match x.pfx with
      | none => return none
      | some p =>
        if compWithMask p.uchar pfx.uchar pfx.bitlen then return some ptr else return none

/-- `stack[cnt++] = node`, if `keep`. -/
def push (keep : Bool) (stack : List Nat) (ptr : Nat) : M (List Nat) := do
  if keep then
    assertThat (stack.length < radixMaxbits + 1) .overflow
    return ptr :: stack
  else return stack

/-- The first loop of `RadixTreeSearchBest2`: the node it ends at, and the stack. -/
def searchBestLoop (addr : Nat → UInt8) (bitlen : Nat) :
    Nat → Nat → List Nat → M (Option Nat × List Nat)
  | 0, _, _ => throw .hung
  | fuel + 1, ptr, stack => do
    let x ← node ptr
    if x.bit < bitlen then
      let stack ← push x.pfx.isSome stack ptr
      match if bitTest addr x.bit then x.r else x.l with
      | none => return (none, stack)
      | some child => searchBestLoop addr bitlen fuel child stack
    else return (some ptr, stack)

/-- The second loop of `RadixTreeSearchBest2`, from the top of the stack. -/
def searchBestScan (addr : Nat → UInt8) : List Nat → M (Option Nat)
  | [] => return none
  | ptr :: stack => do
    let x ← node ptr
    match x.pfx with
    | none => throw .null
    | some p =>
      if compWithMask p.uchar addr p.bitlen then return some ptr else searchBestScan addr stack

/-- `RadixTreeSearchBest2`. -/
def searchBest2 (pfx : RadixPrefix) (inclusive : Bool) : M (Option Nat) := do
  match (← get).head with
  | none => return none
  | some head =>
    let (last, stack) ← searchBestLoop pfx.uchar pfx.bitlen (radixMaxbits + 1) head []
    match last with
    | none => searchBestScan pfx.uchar stack
    | some ptr =>
      let x ← node ptr
      let stack ← push (inclusive && x.pfx.isSome) stack ptr
      searchBestScan pfx.uchar stack

/-- `RadixTreeSearchBest`. -/
def searchBest (pfx : RadixPrefix) : M (Option Nat) := searchBest2 pfx true

/-- The descent of `RadixTreeLookup`, which goes on through glue nodes. -/
def lookupLoop (addr : Nat → UInt8) (bitlen : Nat) : Nat → Nat → M Nat
  | 0, _ => throw .hung
  | fuel + 1, ptr => do
    let x ← node ptr
    if x.bit < bitlen ∨ x.pfx = none then
      match if x.bit < (← get).maxbits ∧ bitTest addr x.bit then x.r else x.l with
      | none => return ptr
      | some child => lookupLoop addr bitlen fuel child
    else return ptr

def firstBit (r : UInt8) : Nat :=
  ((List.range 8).find? fun j => r &&& ((0x80 : UInt8) >>> UInt8.ofNat j) != 0).getD 8

/-- The loop over the bytes in `RadixTreeLookup`. After `check_bit` rounds it
has ended. -/
def differLoop (addr testAddr : Nat → UInt8) (checkBit : Nat) : Nat → Nat → Nat → Nat
  | 0, _, differBit => differBit
  | fuel + 1, i, differBit =>
    if i * 8 < checkBit then
      let r := addr i ^^^ testAddr i
      if r = 0 then differLoop addr testAddr checkBit fuel (i + 1) ((i + 1) * 8)
      else i * 8 + firstBit r
    else differBit

/-- The `differ_bit` of `RadixTreeLookup`: the first bit different, and no more
than `check_bit`. -/
def differBit (addr testAddr : Nat → UInt8) (checkBit : Nat) : Nat :=
  min (differLoop addr testAddr checkBit checkBit 0 0) checkBit

/-- The climb of `RadixTreeLookup`. -/
def climb (differBit : Nat) : Nat → Nat → M Nat
  | 0, _ => throw .hung
  | fuel + 1, ptr => do
    let x ← node ptr
    match x.parent with
    | none => return ptr
    | some parent =>
      if (← node parent).bit ≥ differBit then climb differBit fuel parent else return ptr

/-- `RadixTreeLookup` with a new node below a node that has `differ_bit` bits. -/
def lookupBelow (pfx : RadixPrefix) (ptr newNode : Nat) : M PUnit := do
  let maxbits := (← get).maxbits
  modifyNode newNode fun y => { y with parent := some ptr }
  modifyNode ptr fun x =>
    if x.bit < maxbits ∧ bitTest pfx.uchar x.bit then { x with r := some newNode }
    else { x with l := some newNode }

/-- `RadixTreeLookup` with a new node above a node that goes on where it ends. -/
def lookupAbove (pfx : RadixPrefix) (testAddr : Nat → UInt8) (ptr newNode : Nat) : M PUnit := do
  let maxbits := (← get).maxbits
  let x ← node ptr
  modifyNode newNode fun y =>
    if pfx.bitlen < maxbits ∧ bitTest testAddr pfx.bitlen then { y with r := some ptr }
    else { y with l := some ptr }
  modifyNode newNode fun y => { y with parent := x.parent }
  relink x.parent ptr (some newNode)
  modifyNode ptr fun x => { x with parent := some newNode }

/-- `RadixTreeLookup` with a new node beside a node that goes on differently, and a
glue node above the two. -/
def lookupBeside (pfx : RadixPrefix) (differBit ptr newNode : Nat) : M PUnit := do
  let maxbits := (← get).maxbits
  let x ← node ptr
  let glue ← malloc { bit := differBit, pfx := none, parent := x.parent }
  modifyNode glue fun y =>
    if differBit < maxbits ∧ bitTest pfx.uchar differBit then
      { y with r := some newNode, l := some ptr }
    else { y with r := some ptr, l := some newNode }
  modifyNode newNode fun y => { y with parent := some glue }
  relink x.parent ptr (some glue)
  modifyNode ptr fun x => { x with parent := some glue }

/-- What `RadixTreeLookup` does at the node where the climb stops. -/
def lookupAt (pfx : RadixPrefix) (testAddr : Nat → UInt8) (differBit ptr : Nat) : M Nat := do
  let x ← node ptr
  if differBit = pfx.bitlen ∧ x.bit = pfx.bitlen then
    if x.pfx = none then modifyNode ptr fun x => { x with pfx := some (refPrefix pfx) }
    return ptr
  let newNode ← malloc { bit := pfx.bitlen, pfx := some (refPrefix pfx) }
  if x.bit = differBit then lookupBelow pfx ptr newNode
  else if pfx.bitlen = differBit then lookupAbove pfx testAddr ptr newNode
  else lookupBeside pfx differBit ptr newNode
  return newNode

/-- `RadixTreeLookup`. -/
def lookup (pfx : RadixPrefix) : M Nat := do
  match (← get).head with
  | none =>
    let ptr ← malloc { bit := pfx.bitlen, pfx := some (refPrefix pfx) }
    modify fun s => { s with head := some ptr }
    return ptr
  | some head =>
    let ptr ← lookupLoop pfx.uchar pfx.bitlen (radixMaxbits + 1) head
    let x ← node ptr
    match x.pfx with
    | none => throw .null
    | some test =>
      let checkBit := if x.bit < pfx.bitlen then x.bit else pfx.bitlen
      let differBit := differBit pfx.uchar test.uchar checkBit
      let ptr ← climb differBit (radixMaxbits + 1) ptr
      lookupAt pfx test.uchar differBit ptr

/-- The pointer to a leaf is cleared in its parent. The other child is returned. -/
def unlinkLeaf (parent ptr : Nat) : M (Option Nat) := do
  let y ← node parent
  if y.r = some ptr then
    modifyNode parent fun y => { y with r := none }
    return y.l
  else
    modifyNode parent fun y => { y with l := none }
    return y.r

/-- What `RadixTreeRemove` does with a node that has no child. A parent without a
prefix is removed too. -/
def removeLeaf (ptr : Nat) (x : RadixNode) : M PUnit := do
  free ptr
  match x.parent with
  | none => modify fun s => { s with head := none }
  | some parent =>
    let child ← unlinkLeaf parent ptr
    let y ← node parent
    if y.pfx = none then
      relink y.parent parent child
      modifyNode (← follow child) fun c => { c with parent := y.parent }
      free parent

/-- `RadixTreeRemove`. -/
def remove (ptr : Nat) : M PUnit := do
  let x ← node ptr
  if x.r.isSome ∧ x.l.isSome then
    modifyNode ptr fun x => { x with pfx := none, data := none }
  else if x.r = none ∧ x.l = none then removeLeaf ptr x
  else
    let child ← follow (if x.r.isSome then x.r else x.l)
    modifyNode child fun c => { c with parent := x.parent }
    free ptr
    relink x.parent ptr (some child)

end RadixTree

end BrbData
