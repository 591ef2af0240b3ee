import Nuttx.Mm.Heap.System

/-!
# Interleaved callers

Any number of tasks and interrupt handlers use one heap. A call is cut where its task can lose the
processor to another one that touches the heap: each part between `mm_takesemaphore` and
`mm_givesemaphore`, and each part in a critical section, runs as one step.
-/

namespace Nuttx.Mm

open ByteMemory

inductive Caller
  | malloc
  | realloc (oldmem oldsize : Nat)
  | memalign (alignment size allocsize : Nat)

inductive Pending
  /-- `mm_free_delaylist` takes the delay list off the heap. -/
  | delaylist (size : Nat) (caller : Caller)
  /-- `mm_free_delaylist` frees `tmp`. -/
  | drain (tmp size : Nat) (caller : Caller)
  /-- The section of `mm_malloc`. -/
  | malloc (size : Nat) (caller : Caller)
  /-- `mm_malloc` fills what it allocated, after it gave the semaphore. -/
  | fill (ret alignsize : Nat) (caller : Caller)
  /-- `mm_realloc` copies to the new chunk. -/
  | copy (newmem oldmem oldsize : Nat)
  /-- `mm_free(mem)`, after which the call returns `ret`. -/
  | free (mem ret : Nat)
  /-- The section of `mm_realloc`. -/
  | realloc (oldmem size : Nat)
  /-- The second section of `mm_memalign`. -/
  | trim (alignment size allocsize rawchunk : Nat)
  /-- The section of `mm_extend`. -/
  | extend (mem size : Nat)

/-- Where a step leaves a call: it goes on, or it has returned and its caller holds `ret`. -/
inductive Outcome
  | next (p : Pending)
  | done (ret : List Nat)

namespace Outcome

def pending : Outcome → List Pending
  | next p => [p]
  | done _ => []

def returned : Outcome → List Nat
  | next _ => []
  | done ret => ret

end Outcome

def Caller.resume : Caller → Nat → Outcome
  | malloc, ret => .done (Sys.hold ret [])
  | realloc oldmem oldsize, ret =>
    if ret ≠ 0 then .next (.copy ret oldmem oldsize) else .done [oldmem]
  | memalign alignment size allocsize, ret =>
    if ret = 0 then .done [] else .next (.trim alignment size allocsize ret)

def Pending.drained (tmp size : Nat) (caller : Caller) : Outcome :=
  if tmp ≠ 0 then .next (.drain tmp size caller)
  else if size < 1 then caller.resume 0
  else .next (.malloc size caller)

variable (c : HeapConfig)

def Pending.advance (ctx : CallContext) (h : Heap) : Pending → Except Fault (Heap × Outcome)
  | delaylist size caller =>
    .ok ({ h with mmDelaylist := 0 }, drained h.mmDelaylist size caller)
  | drain tmp size caller => do
      let address := tmp
      let tmp := load h.mem c.ptrBytes address
      let h ← mmFree c h address ctx
      return (h, drained tmp size caller)
  | malloc size caller => do
      let alignsize := c.mmAlignUp (c.add size c.sizeofMmAllocnode)
      debugassert c .mallocOverflow (alignsize ≥ size)
      debugassert c .mallocMinChunk (alignsize ≥ c.mmMinChunk)
      debugassert c .mallocFreenode (alignsize ≥ c.sizeofMmFreenode)
      let (ret, h) ← mmMallocLocked c h alignsize
      if c.fillAllocations ∧ ret ≠ 0 then
        return (h, .next (.fill ret alignsize caller))
      else
        return (h, caller.resume ret)
  | fill ret alignsize caller =>
    .ok ({ h with mem := memset h.mem ret 0xaa (c.sub alignsize c.sizeofMmAllocnode) },
      caller.resume ret)
  | copy newmem oldmem oldsize =>
    .ok ({ h with mem := memcpy h.mem newmem oldmem oldsize }, .next (.free oldmem newmem))
  | free mem ret => do
      return (← mmFree c h mem ctx, .done (Sys.hold ret []))
  | realloc oldmem size => do
      let newsize := c.mmAlignUp (c.add size c.sizeofMmAllocnode)
      let oldsize := nodeSize c h.mem (oldmem - c.sizeofMmAllocnode)
      match ← mmReallocLocked c h oldmem newsize with
      | (some newmem, h) => return (h, .done [newmem])
      | (none, h) => return (h, .next (.delaylist size (.realloc oldmem oldsize)))
  | trim alignment size allocsize rawchunk => do
      let (ret, h) ← mmMemalignLocked c h alignment size allocsize rawchunk
      return (h, .done [ret])
  | extend mem size => do
      debugassert c .extendSize (size ≥ 2 * c.sizeofMmAllocnode)
      debugassert c .extendBlockstart (c.mmAlignUp mem == mem)
      debugassert c .extendBlockend (c.mmAlignDown (c.add mem size) == c.add mem size)
      let h ← mmExtendLocked c h mem size
      return (h, .next (.free mem 0))

namespace Pending

def Extends (h : Heap) : Pending → Prop
  | extend mem size => ExtendOk c h mem size
  | _ => True

def Clean (m : Mem) : Pending → Prop
  | realloc oldmem size => 2 * c.sizeofMmAllocnode < c.sizeofMmFreenode →
      GrowOk c m oldmem (c.mmAlignUp (size + c.sizeofMmAllocnode))
  | _ => True

/-- The second section of a `mm_memalign` that gives up leading space finds the chunk before its own
allocated, as it was after the first section. -/
def Undisturbed (m : Mem) : Pending → Prop
  | trim alignment _ _ rawchunk => memalignPoint c alignment rawchunk = rawchunk ∨
      let node := rawchunk - c.sizeofMmAllocnode
      isAllocated c m (node - c.clearAllocBit (nodePreceding c m node)) = true
  | _ => True

instance (h : Heap) (p : Pending) : Decidable (p.Extends c h) := by
  cases p <;> unfold Extends <;> infer_instance

instance (m : Mem) (p : Pending) : Decidable (p.Clean c m) := by
  cases p <;> unfold Clean <;> infer_instance

instance (m : Mem) (p : Pending) : Decidable (p.Undisturbed c m) := by
  cases p <;> unfold Undisturbed <;> infer_instance

end Pending

namespace Call

def argument : Call → Nat
  | free mem _ | realloc mem _ => mem
  | malloc _ | memalign _ _ | extend _ _ | write _ _ => 0

def enter : Call → Outcome
  | malloc size => .next (.delaylist size .malloc)
  | free mem _ => if mem = 0 then .done [] else .next (.free mem 0)
  | realloc oldmem size =>
    if oldmem = 0 then .next (.delaylist size .malloc)
    else if size < 1 then .next (.free oldmem 0)
    else .next (.realloc oldmem size)
  | memalign alignment size =>
    if alignment ≤ c.mmMinChunk then .next (.delaylist size .malloc)
    else
      let size := c.mmAlignUp size
      let allocsize := c.add size (c.add alignment alignment)
      .next (.delaylist allocsize (.memalign alignment size allocsize))
  | extend mem size => .next (.extend mem size)
  | write _ _ => .done []

def touch (m : Mem) : Call → Mem
  | write addr byte => store m 1 addr byte.toNat
  | _ => m

end Call

structure Tasks where
  heap : Heap
  live : List Nat
  calls : List Pending

/-- A call is made, or the call at position `i` takes its next step. -/
inductive Event
  | call (x : Call)
  | run (i : Nat) (ctx : CallContext)

namespace Tasks

def step (ts : Tasks) : Event → Except Fault Tasks
  | .call x =>
    .ok ⟨{ ts.heap with mem := x.touch ts.heap.mem },
      (x.enter c).returned ++ Sys.release x.argument ts.live, (x.enter c).pending ++ ts.calls⟩
  | .run i ctx =>
    match ts.calls[i]? with
    | none => .ok ts
    | some p => do
        let (heap, out) ← p.advance c ctx ts.heap
        return ⟨heap, out.returned ++ ts.live,
          ts.calls.take i ++ (out.pending ++ ts.calls.drop (i + 1))⟩

def run (ts : Tasks) (es : List Event) : Except Fault Tasks := es.foldlM (step c) ts

abbrev Along (ok : Tasks → Event → Prop) (ts : Tasks) (es : List Event) : Prop :=
  Runs.OkAlong (step c) ok ts es

def Allows (ts : Tasks) : Event → Prop
  | .call (.extend _ _) => True
  | .call x => (Sys.mk ts.heap ts.live).Allows c x
  | .run i _ => ∀ p ∈ ts.calls[i]?, p.Extends c ts.heap

def Clean (ts : Tasks) : Event → Prop
  | .run i _ => ∀ p ∈ ts.calls[i]?, p.Clean c ts.heap.mem
  | .call _ => True

def Undisturbed (ts : Tasks) : Event → Prop
  | .run i _ => ∀ p ∈ ts.calls[i]?, p.Undisturbed c ts.heap.mem
  | .call _ => True

instance (ts : Tasks) : (e : Event) → Decidable (ts.Allows c e)
  | .call (.extend _ _) => isTrue trivial
  | .call (.malloc size) => inferInstanceAs (Decidable (Sys.Allows c ⟨ts.heap, ts.live⟩ (.malloc size)))
  | .call (.free mem ctx) => inferInstanceAs (Decidable (Sys.Allows c ⟨ts.heap, ts.live⟩ (.free mem ctx)))
  | .call (.realloc oldmem size) => inferInstanceAs (Decidable (Sys.Allows c ⟨ts.heap, ts.live⟩ (.realloc oldmem size)))
  | .call (.memalign alignment size) =>
    inferInstanceAs (Decidable (Sys.Allows c ⟨ts.heap, ts.live⟩ (.memalign alignment size)))
  | .call (.write addr byte) => inferInstanceAs (Decidable (Sys.Allows c ⟨ts.heap, ts.live⟩ (.write addr byte)))
  | .run i _ => inferInstanceAs (Decidable (∀ p ∈ ts.calls[i]?, p.Extends c ts.heap))

instance (ts : Tasks) : (e : Event) → Decidable (ts.Clean c e)
  | .call _ => isTrue trivial
  | .run i _ => inferInstanceAs (Decidable (∀ p ∈ ts.calls[i]?, p.Clean c ts.heap.mem))

instance (ts : Tasks) : (e : Event) → Decidable (ts.Undisturbed c e)
  | .call _ => isTrue trivial
  | .run i _ => inferInstanceAs (Decidable (∀ p ∈ ts.calls[i]?, p.Undisturbed c ts.heap.mem))

end Tasks

end Nuttx.Mm
