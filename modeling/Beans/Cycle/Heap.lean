import Beans.Foundation.Loop

/-!
# The cycle collectors

Objects with a count, a colour and the bit of the root buffer, and the two
collectors over them: `cc_collect` over the global buffer, and
`cc_worker_collect` over the buffer of a thread, which treats graphs of other
threads as a boundary.  Their phases differ in the children they follow and in
what the scan takes for a root; each phase is one definition with a `Tracer`.
A count is what `RC_COUNT` reads.
-/

namespace Beans
namespace Cycle

open Worklist

inductive Color where
  | black
  | gray
  | white
  | purple
deriving DecidableEq, Repr

/-- What no collector changes: the children `cc_walk` visits, in order; the
objects that are not counted; those that other threads may reach (`RC_SHARED`,
channels and mutexes); those whose class has a deinit; and the strong handles
of control blocks with their payloads. -/
structure CcShape (N C : Type*) where
  children : N → List N
  immortal : N → Bool
  shared : N → Bool
  fin : N → Bool
  handle : N → Option C
  payload : C → Option N

/-- What the collectors change. -/
structure CcState (N C : Type*) where
  count : N → ℤ
  color : N → Color
  buf : N → Bool
  ccRoots : List N
  ccWalkMin : ℤ
  workerRoots : List N
  workerWalkMin : ℤ
  sawShared : Bool
  strong : C → ℤ
  /-- The shells that were given back. -/
  freed : List N
  /-- The payloads that their control blocks owe a release. -/
  deferred : List N
  /-- A dead cycle, its counts put back, whose deinit bodies run next. -/
  bodies : List N

variable {N C : Type*} [DecidableEq N]

namespace CcState

def setColor (s : CcState N C) (p : N) (c : Color) : CcState N C :=
  { s with color := Function.update s.color p c }

def addCount (s : CcState N C) (p : N) (d : ℤ) : CcState N C :=
  { s with count := Function.update s.count p (s.count p + d) }

def clearBuf (s : CcState N C) (p : N) : CcState N C :=
  { s with buf := Function.update s.buf p false }

theorem setColor_color (s : CcState N C) (p q : N) (c : Color) :
    (s.setColor p c).color q = if q = p then c else s.color q :=
  Function.update_apply _ _ _ _

theorem addCount_count (s : CcState N C) (p q : N) (d : ℤ) :
    (s.addCount p d).count q = if q = p then s.count p + d else s.count q :=
  Function.update_apply _ _ _ _

theorem clearBuf_buf (s : CcState N C) (p q : N) :
    (s.clearBuf p).buf q = if q = p then false else s.buf q :=
  Function.update_apply _ _ _ _

end CcState

/-- What a visitor does with a child. -/
inductive Edge where
  | follow
  | skip
  | boundary
deriving DecidableEq, Repr

/-- A collector's view of the heap. -/
structure Tracer (N : Type*) where
  children : N → List N
  edge : N → Edge
  /-- The objects `mark_gray` works on. -/
  works : N → Bool
  /-- The scan takes a buffered object for a root. -/
  holdsBuffered : Bool

/-- `cc_walk`. -/
def ccWalk (t : Tracer N)
    (visit : N → List N × CcState N C → List N × CcState N C) (p : N)
    (acc : List N × CcState N C) : List N × CcState N C :=
  (t.children p).foldl (fun acc c => visit c acc) acc

/-- The visitor of the scan and of the collection: it only pushes. -/
def visitPush (t : Tracer N) (c : N) (acc : List N × CcState N C) :
    List N × CcState N C :=
  match t.edge c with
  | .follow => (c :: acc.1, acc.2)
  | _ => acc

/-- The visitor of the marking: the reference is taken away. -/
def visitDecPush (t : Tracer N) (c : N) (acc : List N × CcState N C) :
    List N × CcState N C :=
  match t.edge c with
  | .follow => (c :: acc.1, acc.2.addCount c (-1))
  | .boundary => (acc.1, { acc.2 with sawShared := true })
  | .skip => acc

/-- The visitor of the blackening: the reference is given back. -/
def visitIncPush (t : Tracer N) (c : N) (acc : List N × CcState N C) :
    List N × CcState N C :=
  match t.edge c with
  | .follow =>
    let s := acc.2.addCount c 1
    if s.color c ≠ .black then (c :: acc.1, s.setColor c .black)
    else (acc.1, s)
  | _ => acc

def restoreEdge (t : Tracer N) (c : N) (acc : List N × CcState N C) :
    List N × CcState N C :=
  match t.edge c with
  | .follow => (acc.1, acc.2.addCount c 1)
  | _ => acc

def markGrayBody (t : Tracer N) (p : N) (st : List N) (s : CcState N C) :
    Option (List N × CcState N C) :=
  if t.works p = false then some (st, s)
  else if s.color p = .gray then some (st, s)
  else some (ccWalk t (visitDecPush t) p (st, s.setColor p .gray))

/-- The marking: what the root reaches turns gray and loses its references from gray objects. -/
def markGray (t : Tracer N) (fuel : ℕ) (root : N) (s : CcState N C) :
    Option (CcState N C) :=
  drain (markGrayBody t) fuel [root] s

def scanBlackBody (t : Tracer N) (p : N) (st : List N) (s : CcState N C) :
    Option (List N × CcState N C) :=
  some (ccWalk t (visitIncPush t) p (st, s))

/-- The blackening: what the root reaches is alive and gets its references back. -/
def scanBlack (t : Tracer N) (fuel : ℕ) (root : N) (s : CcState N C) :
    Option (CcState N C) :=
  drain (scanBlackBody t) fuel [root] (s.setColor root .black)

def scanBody (t : Tracer N) (fuel : ℕ) (p : N) (st : List N)
    (s : CcState N C) : Option (List N × CcState N C) :=
  if s.color p ≠ .gray then some (st, s)
  else if (t.holdsBuffered = true ∧ s.buf p = true) ∨ 0 < s.count p then
    (scanBlack t fuel p s).map fun s' => (st, s')
  else some (ccWalk t (visitPush t) p (st, s.setColor p .white))

/-- The scan: gray objects with a count are blackened, and the others turn white. -/
def scan (t : Tracer N) (fuel : ℕ) (root : N) (s : CcState N C) :
    Option (CcState N C) :=
  drain (scanBody t fuel) fuel [root] s

/-- The state is that of the heap and the dead objects so far. -/
def collectWhiteBody (t : Tracer N) (p : N) (st : List N)
    (r : CcState N C × List N) : Option (List N × (CcState N C × List N)) :=
  if r.1.color p ≠ .white ∨ r.1.buf p = true then some (st, r)
  else
    let walked := ccWalk t (visitPush t) p (st, r.1.setColor p .black)
    some (walked.1, (walked.2, r.2 ++ [p]))

/-- The white objects that the root reaches are gathered. -/
def collectWhite (t : Tracer N) (fuel : ℕ) (root : N)
    (r : CcState N C × List N) : Option (CcState N C × List N) :=
  drain (collectWhiteBody t) fuel [root] r

variable [DecidableEq C]

/-- `cc_free_shell` and the push of what it hands back: the payload of a
control block whose last strong handle it was. -/
def ccFreeShell (g : CcShape N C) (p : N) (s : CcState N C) : CcState N C :=
  let s := { s with freed := s.freed ++ [p] }
  match g.handle p with
  | none => s
  | some c =>
    let strong := Function.update s.strong c (s.strong c - 1)
    if s.strong c = 1 then
      { s with
        strong := strong
        deferred := s.deferred ++ (g.payload c).toList }
    else { s with strong := strong }

/-- Whether a member of the dead set has a deinit; if so the edges that leave
the set are put back and its bodies run. -/
def ccRunCycleDeinits (t : Tracer N) (fin : N → Bool) (dead : List N)
    (s : CcState N C) : Option (CcState N C) :=
  if dead.any fin then
    let restored :=
      dead.foldl (fun s p => (ccWalk t (restoreEdge t) p ([], s)).2) s
    some { restored with bodies := dead }
  else none

/-- The shells of the dead are given back, but for those that a buffer still names. -/
def ccFreeCycleShells (g : CcShape N C) (dead : List N) (s : CcState N C) :
    CcState N C :=
  dead.foldl (fun s p =>
    if s.buf p then s.setColor p .black else ccFreeShell g p s) s

/-- The next adaptive gate. -/
def nextWalkMin (dead : List N) (walkMin : ℤ) : ℤ :=
  if dead = [] then
    if walkMin * 4 > 2 ^ 18 then 2 ^ 18 else walkMin * 4
  else 256

/-- The view of `cc_collect`: every counted object. -/
def globalTracer (g : CcShape N C) : Tracer N where
  children := g.children
  edge c := if g.immortal c then .skip else .follow
  works _ := true
  holdsBuffered := false

def ccMarkGray (g : CcShape N C) (fuel : ℕ) (root : N) (s : CcState N C) :
    Option (CcState N C) :=
  markGray (globalTracer g) fuel root s

def ccScan (g : CcShape N C) (fuel : ℕ) (root : N) (s : CcState N C) :
    Option (CcState N C) :=
  scan (globalTracer g) fuel root s

def ccCollectWhite (g : CcShape N C) (fuel : ℕ) (root : N)
    (r : CcState N C × List N) : Option (CcState N C × List N) :=
  collectWhite (globalTracer g) fuel root r

/-- The cheap half of `cc_collect`: the live purple candidates that stay, and
the state after the dead shells are given back. -/
def ccFilter (g : CcShape N C) :
    List N → CcState N C → List N × CcState N C
  | [], s => ([], s)
  | p :: rest, s =>
    if s.color p = .purple ∧ 0 < s.count p then
      let r := ccFilter g rest s
      (p :: r.1, r.2)
    else
      let s := s.clearBuf p
      ccFilter g rest (if s.count p = 0 then ccFreeShell g p s else s)

/-- `cc_collect`, up to the release of what the shells handed back: the payload of a
dead `Shared` handle loses that handle's reference afterwards. -/
def ccCollect (g : CcShape N C) (fuel : ℕ) (force : Bool) (s : CcState N C) :
    Option (CcState N C) :=
  let kept := ccFilter g s.ccRoots s
  let s := { kept.2 with ccRoots := kept.1 }
  if kept.1 ≠ [] ∧ (force = true ∨ s.ccWalkMin ≤ (kept.1.length : ℤ)) then do
    let marked ← forEach (ccMarkGray g fuel) kept.1 s
    let scanned ← forEach (ccScan g fuel) kept.1 marked
    let swept ← forEach (fun p r =>
      ccCollectWhite g fuel p (r.1.clearBuf p, r.2)) kept.1 (scanned, [])
    let s := { swept.1 with
      ccRoots := []
      ccWalkMin := nextWalkMin swept.2 s.ccWalkMin }
    match ccRunCycleDeinits (globalTracer g) g.fin swept.2 s with
    | some s => some s
    | none => some (ccFreeCycleShells g swept.2 s)
  else some s

/-- `cc_owner_local_node`. -/
def ccOwnerLocalNode (g : CcShape N C) (p : N) : Bool :=
  !g.immortal p && !g.shared p

/-- `cc_shared_boundary`. -/
def ccSharedBoundary (g : CcShape N C) (p : N) : Bool :=
  !g.immortal p && g.shared p

/-- The view of `cc_worker_collect`: the objects of the thread, with the shared ones as a boundary. -/
def workerTracer (g : CcShape N C) : Tracer N where
  children := g.children
  edge c :=
    if ccOwnerLocalNode g c then .follow
    else if ccSharedBoundary g c then .boundary
    else .skip
  works := ccOwnerLocalNode g
  holdsBuffered := true

def ccWorkerMarkGray (g : CcShape N C) (fuel : ℕ) (root : N)
    (s : CcState N C) : Option (CcState N C) :=
  markGray (workerTracer g) fuel root s

def ccWorkerScanBlack (g : CcShape N C) (fuel : ℕ) (root : N)
    (s : CcState N C) : Option (CcState N C) :=
  if ccOwnerLocalNode g root then scanBlack (workerTracer g) fuel root s
  else some s

def ccWorkerScan (g : CcShape N C) (fuel : ℕ) (root : N) (s : CcState N C) :
    Option (CcState N C) :=
  scan (workerTracer g) fuel root s

def ccWorkerCollectWhite (g : CcShape N C) (fuel : ℕ) (root : N)
    (r : CcState N C × List N) : Option (CcState N C × List N) :=
  collectWhite (workerTracer g) fuel root r

/-- The cheap pass over a thread's buffer: the candidates that stay, and those
for the global buffer. -/
def ccWorkerFilter (g : CcShape N C) :
    List N → CcState N C → (List N × List N) × CcState N C
  | [], s => (([], []), s)
  | p :: rest, s =>
    if ccOwnerLocalNode g p = false then
      let r := ccWorkerFilter g rest s
      ((r.1.1, p :: r.1.2), r.2)
    else if s.color p = .purple ∧ 0 < s.count p then
      let r := ccWorkerFilter g rest s
      ((p :: r.1.1, r.1.2), r.2)
    else
      let s := s.clearBuf p
      ccWorkerFilter g rest (if s.count p = 0 then ccFreeShell g p s else s)

/-- A walk that reached a graph of another thread: its decrements are undone
and its roots are published. -/
def ccWorkerUndo (g : CcShape N C) (fuel : ℕ) (walked rest : List N)
    (s : CcState N C) : Option (CcState N C) := do
  let undone ← forEach (fun p s =>
    if s.color p = .gray then ccWorkerScanBlack g fuel p s else some s) walked s
  let s := walked.foldl (fun s p => s.setColor p .purple) undone
  return { s with ccRoots := s.ccRoots ++ walked, workerRoots := rest }

/-- A walk among the thread's own objects. -/
def ccWorkerReap (g : CcShape N C) (fuel : ℕ) (walked rest : List N)
    (s : CcState N C) : Option (CcState N C) := do
  let s := walked.foldl (fun s p => s.clearBuf p) s
  let scanned ← forEach (ccWorkerScan g fuel) walked s
  let swept ← forEach (ccWorkerCollectWhite g fuel) walked (scanned, [])
  let s := { swept.1 with
    workerRoots := rest
    workerWalkMin := nextWalkMin swept.2 swept.1.workerWalkMin }
  match ccRunCycleDeinits (workerTracer g) g.fin swept.2 s with
  | some s => some s
  | none => some (ccFreeCycleShells g swept.2 s)

/-- `cc_worker_collect` with a walk budget, up to the release of what the
shells handed back.  The husk sweeps that `cc_append_roots` and the last walker
out attempt free dead shells of the global buffer; they are not part of it. -/
def ccWorkerCollect (g : CcShape N C) (budget fuel : ℕ) (s : CcState N C) :
    Option (CcState N C) :=
  let kept := ccWorkerFilter g s.workerRoots s
  let roots : List N := kept.1.1
  let s : CcState N C := { kept.2 with
    workerRoots := roots
    ccRoots := kept.2.ccRoots ++ kept.1.2 }
  if s.workerWalkMin ≤ (roots.length : ℤ) then do
    let walked := roots.take budget
    let rest := roots.drop budget
    let marked ← forEach (ccWorkerMarkGray g fuel) walked
      { s with sawShared := false }
    if marked.sawShared then ccWorkerUndo g fuel walked rest marked
    else ccWorkerReap g fuel walked rest marked
  else some s

end Cycle
end Beans
