import Spark.Lib.AsyncRing
import Spark.Uring.Basic

/-!
# The batch reader

`FixedBufferReader::read` on one persistent ring. The kernel is a list of steps it takes whenever
the reader lets it: it may move bytes of an operation in flight at any time, and finish it with any
result. Pushes and `submit_and_wait` succeed or fail as the answers of the call say. An operation
carries the number of the call that pushed it, which no code reads.

* **`Reader.kernel`** — one step of the kernel.
* **`readLoop`** — push, submit and drain, one queue depth at a time.
* **`read`** — one call.
-/

namespace Spark.Uring

structure Op where
  read : FixedRead
  userData : Nat
  call : Nat

/-- The cells an operation may write. -/
def FixedRead.covers (read : FixedRead) (i : Nat) : Bool :=
  read.bufferOffset ≤ i && i < read.bufferOffset + read.bytes

structure ReaderConfig where
  bufferLen : Nat
  queueDepth : Nat
  maxBatch : Nat
  depth_pos : 0 < queueDepth

structure Reader where
  ring : AsyncRing Op
  slab : Mem UInt8
  /-- Every completion the kernel ever posted; not in the source. -/
  log : List (Op × Int)

/-- A step of the kernel on the operation at `index` among those in flight. What it writes beyond
the bytes it reports is `junk`. -/
inductive KernelStep where
  | transfer (index : Nat) (junk : Mem UInt8)
  | complete (index : Nat) (result : Int) (junk : Mem UInt8)

/-- The bytes a completion with `result` has read. -/
def FixedRead.transferred (read : FixedRead) (result : Int) : List UInt8 :=
  read.file.contents.slice read.fileOffset (min result.toNat read.bytes)

def Reader.kernel (reader : Reader) : KernelStep → Reader
  | .transfer index junk =>
    match reader.ring.inFlight[index]? with
    | none => reader
    | some op => { reader with slab := reader.slab.scribble op.read.covers junk }
  | .complete index result junk =>
    match reader.ring.inFlight[index]? with
    | none => reader
    | some op =>
      { ring := reader.ring.complete index result
        slab := (reader.slab.scribble op.read.covers junk).write op.read.bufferOffset
          (op.read.transferred result)
        log := reader.log ++ [(op, result)] }

def Reader.kernelSteps (reader : Reader) (steps : List KernelStep) : Reader :=
  steps.foldl Reader.kernel reader

/-- The answers of one batch: which pushes succeed, how many operations the kernel takes, and what
`submit_and_wait` returns. -/
structure BatchAnswers where
  pushes : Nat → Bool
  taken : Nat
  kernel : List KernelStep
  wait : Option Int

/-- Push operations until one does not fit. -/
def pushAll (pushes : Nat → Bool) : Nat → List Op → Reader → Reader × Bool
  | _, [], reader => (reader, true)
  | place, op :: ops, reader =>
    if pushes place then pushAll pushes (place + 1) ops { reader with ring := reader.ring.push op }
    else (reader, false)

/-- Reap `count` completions into the results of a call with `limit` operations. -/
def drain (limit : Nat) : Nat → Reader → List Int → Reader × Except IoError (List Int)
  | 0, reader, results => (reader, .ok results)
  | count + 1, reader, results =>
    match reader.ring.reap with
    | none => (reader, .error (.unexpectedEof "missing io_uring completion"))
    | some (first, ring) =>
      let reader := { reader with ring := ring }
      if first.1.userData = 0 ∨ first.1.userData > limit then
        (reader, .error (.other "invalid io_uring completion user_data"))
      else drain limit count reader (results.set (first.1.userData - 1) first.2)

/-- One batch: push, submit, wait, drain. -/
def readBatch (limit : Nat) (ops : List Op) (answers : BatchAnswers) (reader : Reader)
    (results : List Int) : Reader × Except IoError (List Int) :=
  match pushAll answers.pushes 0 ops reader with
  | (reader, false) => (reader, .error (.wouldBlock "io_uring queue is full"))
  | (reader, true) =>
    let reader :=
      Reader.kernelSteps { reader with ring := reader.ring.submit answers.taken } answers.kernel
    match answers.wait with
    | some code => (reader, .error (.rawOs code))
    | none => drain limit ops.length reader results

/-- The batches of a call from its `round`-th on; also how many there were. -/
def readLoop (config : ReaderConfig) (limit : Nat) (answers : Nat → BatchAnswers) :
    (fuel round : Nat) → List Op → Reader → List Int → Reader × Except IoError (List Int × Nat)
  | 0, round, _, reader, results => (reader, .ok (results, round))
  | fuel + 1, round, ops, reader, results =>
    if ops = [] then (reader, .ok (results, round))
    else
      match readBatch limit (ops.take config.queueDepth) (answers round) reader results with
      | (reader, .error error) => (reader, .error error)
      | (reader, .ok results) =>
        readLoop config limit answers fuel (round + 1) (ops.drop config.queueDepth) reader results

/-- The results of a call against the lengths it asked for. -/
def checkResults : List FixedRead → List Int → FixedReadStats → Except IoError FixedReadStats
  | read :: reads, result :: results, stats =>
    if result < 0 then .error (.rawOs (-result))
    else if result.toNat ≠ read.bytes then
      .error (.unexpectedEof
        s!"short fixed-buffer read at offset {read.fileOffset}: expected {read.bytes}, got {result}")
    else
      checkResults reads results
        { stats with
          operations := min (stats.operations + 1) (2 ^ 64 - 1)
          bytes := min (stats.bytes + read.bytes) (2 ^ 64 - 1) }
  | _, _, stats => .ok stats

/-- The operations of a call, numbered from one. -/
def ownOps (call : Nat) (reads : List FixedRead) : List Op :=
  reads.zipIdx.map fun entry => ⟨entry.1, entry.2 + 1, call⟩

/-- `i32::MIN`, which no completion has. -/
def noResult : Int := -(2 ^ 31)

/-- `FixedBufferReader::read`. -/
def read (config : ReaderConfig) (call : Nat) (reads : List FixedRead)
    (answers : Nat → BatchAnswers) (reader : Reader) : Reader × Except IoError FixedReadStats :=
  match validate config.maxBatch config.bufferLen reads with
  | .error error => (reader, .error error)
  | .ok () =>
    if reads = [] then (reader, .ok {})
    else
      let cleared :=
        { reader with
          slab := reads.foldl (fun slab read => slab.fill read.bufferOffset read.bytes 0)
            reader.slab }
      match readLoop config reads.length answers reads.length 0 (ownOps call reads) cleared
          (List.replicate reads.length noResult) with
      | (reader, .error error) => (reader, .error error)
      | (reader, .ok (results, batches)) =>
        (reader, checkResults reads results
          { operations := 0, bytes := 0, submissionBatches := min batches (2 ^ 64 - 1) })

/-! ## Calls -/

/-- One call with what the kernel does before it. -/
structure ReadCall where
  before : List KernelStep
  reads : List FixedRead
  answers : Nat → BatchAnswers

structure ReadOutcome where
  call : Nat
  reads : List FixedRead
  start : Reader
  after : Reader
  result : Except IoError FixedReadStats

/-- The calls of one reader, the first of them numbered `call`. -/
def readAll (config : ReaderConfig) : (call : Nat) → Reader → List ReadCall → List ReadOutcome
  | _, _, [] => []
  | call, reader, next :: calls =>
    let start := reader.kernelSteps next.before
    let outcome := read config call next.reads next.answers start
    ⟨call, next.reads, start, outcome.1, outcome.2⟩ ::
      readAll config (call + 1) outcome.1 calls

end Spark.Uring
