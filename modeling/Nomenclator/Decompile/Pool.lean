import Nomenclator.Decompile.Backend
import Nomenclator.Decompile.SourceWriter

/-!
# The pool — many classes at once, one writer

A job has one worker per class, a bounded channel and one writer. A worker takes a permit,
runs the decompiler, records the lines, queues its source and sends it through the
channel; the writer takes sources from the channel and appends them to the archive. The
main loop joins workers that have ended; the first failure that it sees is kept, and from
then on the other workers may be cancelled.

Everything that can happen next is an `Event`, and `Pool.step` says what an event does, or
that it cannot happen. A run is a list of events; `nextEvent` is one way to choose them,
class after class.
-/

namespace Nomenclator.Decompile

/-- How far a class has come. -/
inductive Stage where
  | queued
  | decompiling
  | decompiled
  | queuedForWrite
  | written
  deriving DecidableEq, Repr

/-- Stages in the order in which a class passes them. -/
def Stage.rank : Stage → Nat
  | .queued => 0
  | .decompiling => 1
  | .decompiled => 2
  | .queuedForWrite => 3
  | .written => 4

/-- What a worker does next. -/
inductive Worker where
  | waiting
  | running
  | returned (c : DecompiledClass)
  | recorded (c : DecompiledClass)
  | sending (c : DecompiledClass)
  | ended (error : Option Error)
  | cancelled
  deriving DecidableEq

/-- Has the worker nothing left to do? -/
def Worker.isOver : Worker → Bool
  | .ended _ => true
  | .cancelled => true
  | _ => false

/-- A source on its way to the writer. -/
structure Delivery where
  index : Nat
  path : String
  data : Bytes
  deriving DecidableEq, Repr

/-- The state of the writer: not yet started, at work, stopped by an error, or done. -/
inductive WriterState where
  | opening
  | ready (writer : SourceWriter) (sources bytes : Nat)
  | broken (error : Error)
  | finished (writer : SourceWriter) (sources bytes : Nat)
  deriving DecidableEq

/-- What does not change during a job. `created` is the outcome of creating the archive, and
    `output` the path that errors of the archive name. -/
structure Plan where
  backend : Backend
  classes : List (ClassContext × Bytes)
  threads : Nat
  capacity : Nat
  created : Except Error Unit
  output : Files.Path

/-- The state of a job. -/
structure Pool where
  workers : List Worker
  stages : List Stage
  lines : LineTable := {}
  channel : List Delivery := []
  writer : WriterState := .opening
  joined : List Nat := []
  failure : Option Error := none
  deriving DecidableEq

/-- What can happen next. -/
inductive Event where
  | openWriter
  | take (i : Nat)
  | finish (i : Nat)
  | record (i : Nat)
  | queue (i : Nat)
  | send (i : Nat)
  | write
  | closeWriter
  | join (i : Nat)
  | cancel (i : Nat)
  deriving DecidableEq, Repr

namespace Pool

/-- All classes queued, no worker started. -/
def initial (plan : Plan) : Pool :=
  { workers := plan.classes.map fun _ => .waiting
    stages := plan.classes.map fun _ => .queued }

/-- The pool in which a worker does something else next. -/
def setWorker (p : Pool) (i : Nat) (w : Worker) : Pool := { p with workers := p.workers.set i w }

/-- The pool in which a class has come further. -/
def setStage (p : Pool) (i : Nat) (s : Stage) : Pool := { p with stages := p.stages.set i s }

/-- The number of classes inside the decompiler. -/
def runningCount (p : Pool) : Nat := p.workers.countP fun w => w == .running

/-- The number of classes at a stage. -/
def stageCount (p : Pool) (s : Stage) : Nat := p.stages.countP (· == s)

/-- Have all workers ended and been joined? -/
def allJoined (p : Pool) : Bool := (List.range p.workers.length).all p.joined.contains

/-- Runs the decompiler on a class. -/
def runBackend (plan : Plan) (p : Pool) (i : Nat) (context : ClassContext) (bytecode : Bytes) :
    Pool :=
  match plan.backend.run context bytecode with
  | .failure chain =>
    let error := Error.workerFailure plan.backend.name context.binaryName (": ".intercalate chain)
    p.setWorker i (.ended (some error))
  | .crash => p.setWorker i (.ended (some .taskFailure))
  | .nothing => (p.setStage i .decompiled).setWorker i (.ended none)
  | .source c => (p.setStage i .decompiled).setWorker i (.returned c)

/-- Adds the lines that were reported for a class. -/
def recordLines (plan : Plan) (p : Pool) (i : Nat) (c : DecompiledClass) : Pool :=
  match c.report, plan.classes[i]? with
  | some report, some (context, _) =>
    { p with lines := p.lines.insert context.binaryName report.compose }
  | _, _ => p

/-- Hands a source to the channel; fails if nobody takes from it any more. -/
def deliver (plan : Plan) (p : Pool) (i : Nat) (c : DecompiledClass) : Option Pool :=
  match p.writer with
  | .broken _ => some (p.setWorker i (.ended (some .writerClosed)))
  | .finished .. => some (p.setWorker i (.ended (some .writerClosed)))
  | _ =>
    if p.channel.length < plan.capacity then
      let delivery : Delivery :=
        { index := i, path := c.outputPath, data := Text.encodeUtf8 c.source.toList }
      some ({ p with channel := p.channel ++ [delivery] }.setWorker i (.ended none))
    else none

/-- What an event does; `none` if it cannot happen. -/
def step (plan : Plan) (p : Pool) : Event → Option Pool
  | .openWriter =>
    match p.writer with
    | .opening =>
      match plan.created with
      | .ok () => some { p with writer := .ready (SourceWriter.start .empty) 0 0 }
      | .error e => some { p with writer := .broken e }
    | _ => none
  | .take i =>
    match p.workers[i]? with
    | some .waiting =>
      if p.runningCount < plan.threads then
        some ((p.setStage i .decompiling).setWorker i .running)
      else none
    | _ => none
  | .finish i =>
    match p.workers[i]?, plan.classes[i]? with
    | some .running, some (context, bytecode) => some (runBackend plan p i context bytecode)
    | _, _ => none
  | .record i =>
    match p.workers[i]? with
    | some (.returned c) => some ((recordLines plan p i c).setWorker i (.recorded c))
    | _ => none
  | .queue i =>
    match p.workers[i]? with
    | some (.recorded c) => some ((p.setStage i .queuedForWrite).setWorker i (.sending c))
    | _ => none
  | .send i =>
    match p.workers[i]? with
    | some (.sending c) => deliver plan p i c
    | _ => none
  | .write =>
    match p.writer, p.channel with
    | .ready writer sources bytes, delivery :: later =>
      match writer.write delivery.path delivery.data with
      | (true, writer) =>
        let p := p.setStage delivery.index .written
        some { p with
          channel := later
          writer := .ready writer (sources + 1) (bytes + delivery.data.length) }
      | (false, _) => some { p with channel := [], writer := .broken (.archive plan.output) }
    | _, _ => none
  | .closeWriter =>
    match p.writer, p.channel with
    | .ready writer sources bytes, [] =>
      if p.workers.all Worker.isOver then
        some { p with writer := .finished writer sources bytes }
      else none
    | _, _ => none
  | .join i =>
    if p.joined.contains i then none
    else match p.workers[i]? with
      | some (.ended error) =>
        some { p with joined := i :: p.joined, failure := p.failure.or error }
      | some .cancelled => some { p with joined := i :: p.joined }
      | _ => none
  | .cancel i =>
    if p.failure.isNone then none
    else match p.workers[i]? with
      | some w => if w.isOver then none else some (p.setWorker i .cancelled)
      | none => none

/-- The first index whose worker satisfies a condition. -/
def firstWorker (p : Pool) (condition : Nat → Worker → Bool) : Option Nat :=
  (List.range p.workers.length).find? fun i =>
    match p.workers[i]? with
    | some w => condition i w
    | none => false

/-- The next event of a worker that is under way, its permit taken. -/
def workerEvent (p : Pool) (i : Nat) : Option Event :=
  match p.workers[i]? with
  | some .running => some (.finish i)
  | some (.returned _) => some (.record i)
  | some (.recorded _) => some (.queue i)
  | some (.sending _) => some (.send i)
  | _ => none

/-- One way to go on: the writer first, then the worker that is under way, then the next
    class. After a failure the remaining workers are cancelled. -/
def nextEvent (p : Pool) : Option Event :=
  if p.writer = .opening then some .openWriter
  else match p.firstWorker fun i w => w.isOver && !p.joined.contains i with
    | some i => some (.join i)
    | none =>
      match p.failure, p.firstWorker fun _ w => !w.isOver with
      | some _, some i => some (.cancel i)
      | _, _ =>
        match p.writer, p.channel with
        | .ready .., _ :: _ => some .write
        | _, _ =>
          match p.firstWorker fun _ w => !w.isOver && w != .waiting with
          | some i => p.workerEvent i
          | none =>
            match p.firstWorker fun _ w => w == .waiting with
            | some i => some (.take i)
            | none =>
              match p.writer with
              | .ready .. => some .closeWriter
              | _ => none

/-- Goes on as `nextEvent` says, at most as many steps as the argument says. -/
def runFrom (plan : Plan) : (fuel : Nat) → Pool → Pool
  | 0, p => p
  | fuel + 1, p =>
    match p.nextEvent.bind (step plan p) with
    | some next => runFrom plan fuel next
    | none => p

/-- A whole job: a class takes seven events at most, and the writer two more. -/
def run (plan : Plan) : Pool := runFrom plan (7 * plan.classes.length + 2) (initial plan)

/-- What a pool that has come to its end reports: the writer, and the number of sources and of
    their octets. The error of a broken writer is reported rather than that nobody took a
    source from the channel. -/
def outcome (p : Pool) : Except Error (SourceWriter × Nat × Nat) :=
  match p.failure, p.writer with
  | some .writerClosed, .broken e => .error e
  | none, .broken e => .error e
  | some e, _ => .error e
  | none, .finished writer sources bytes =>
    if p.stageCount .written + p.stageCount .decompiled = p.stages.length then
      .ok (writer, sources, bytes)
    else .error .writerClosed
  | none, _ => .error .writerClosed

end Pool

end Nomenclator.Decompile
