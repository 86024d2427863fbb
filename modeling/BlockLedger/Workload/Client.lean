import BlockLedger.Storage.Chain
import BlockLedger.Workload.Generator
import BlockLedger.Workload.Plan

/-
# Clients of the workload

A client is a backend that draws its statements: scans and single reads of the shared tables,
writes to its scratch table, reads ahead, writes to its temporary table, and now and then a
relocation of the scratch table.  No client looks at pages, so they hold nothing.

A statement may fail half-way, and what it did until then stays.
-/

namespace BlockLedger

/-- A backend of the workload. -/
structure Client where
  id : UInt32
  backend : Backend
  generator : Generator
  tables : List Relation
  tableBlocks : UInt32
  scratch : Relation
  temporary : Option Relation := none
  /-- The length of the temporary table. -/
  temporaryBlocks : UInt32 := 0
  /-- The number of the next asynchronous read. -/
  nextRead : Nat := 0

/-- A client and what it shares with the others. -/
structure Scene where
  client : Client
  ledger : Ledger
  device : Device Unit := {}

/-- Why a statement failed. -/
inductive StatementError where
  | call (error : CallError)
  /-- There is no table to pick one from. -/
  | noTables
  deriving DecidableEq, Inhabited, Repr

/-- Something that a client does, which may fail and then leaves what it has done. -/
abbrev Statement := EStateM StatementError Scene

namespace Client

/-- The chain of every client. -/
def chain : List Link := [.counting, .device]

/-- Sends a request along the chain. -/
def call (relation : Relation) (operation : Operation Unit) : Statement Unit := fun s =>
  match Chain.call () chain ⟨relation, .main, operation⟩ ⟨s.client.backend, s.ledger, s.device⟩ with
  | (result, site) =>
    let s : Scene :=
      { client := { s.client with backend := site.backend }
        ledger := site.ledger
        device := site.device }
    match result with
    | .ok _ => .ok () s
    | .error e => .error (.call e) s

/-- Ends an asynchronous read well. -/
def complete (handle : Handle) : Statement Unit := modify fun s =>
  match Chain.complete chain handle .ok ⟨s.client.backend, s.ledger, s.device⟩ with
  | (_, site) =>
    { client := { s.client with backend := site.backend }
      ledger := site.ledger
      device := site.device }

/-- Changes the client. -/
def modifyClient (f : Client → Client) : Statement Unit :=
  modify fun s => { s with client := f s.client }

/-- The client. -/
def self : Statement Client := do return (← get).client

/-- Draws a number below a bound. -/
def draw (bound : UInt32) : Statement UInt32 := do
  let (n, generator) := (← self).generator.below bound
  modifyClient fun c => { c with generator }
  return n

/-- Draws one of the shared tables. -/
def drawTable : Statement Relation := do
  let tables := (← self).tables
  let i ← draw (UInt32.ofNat tables.length)
  match tables[i.toNat]? with
  | some table => return table
  | none => throw .noTables

/-! ## Statements -/

/-- Reads blocks one by one, a number of them. -/
def readEach (table : Relation) : Nat → BlockNumber → Statement Unit
  | 0, _ => pure ()
  | count + 1, block => do
    call table (.read block 1)
    readEach table count (block + 1)

/-- Reads a range of a table. -/
def scan : Statement Unit := do
  let table ← drawTable
  let blocks := (← self).tableBlocks
  let start ← draw blocks
  let stop := min (start + 1 + (← draw Plan.scanBlocks)) blocks
  readEach table (stop.toNat - start.toNat) start

/-- Reads a number of single blocks. -/
def lookUpEach : Nat → Statement Unit
  | 0 => pure ()
  | count + 1 => do
    let table ← drawTable
    let block ← draw (← self).tableBlocks
    call table (.read block 1)
    lookUpEach count

/-- Reads up to four single blocks. -/
def lookUp : Statement Unit := do lookUpEach ((← draw 4).toNat + 1)

/-- Writes up to eight blocks of the scratch table, and sometimes forces it to disk. -/
def update : Statement Unit := do
  let count := 1 + (← draw 8)
  let block ← draw (Plan.scratchBlocks - count + 1)
  let scratch := (← self).scratch
  call scratch (.write block (List.replicate count.toNat ()))
  if (← draw 4) = 0 then call scratch .sync

/-- Reads several blocks ahead. -/
def readAhead : Statement Unit := do
  let table ← drawTable
  let blocks := (← self).tableBlocks
  let count := min (1 + (← draw 4)) blocks
  let block ← draw (blocks - count + 1)
  let handle : Handle := ⟨(← self).nextRead, count⟩
  modifyClient fun c => { c with nextRead := c.nextRead + 1 }
  call table (.submit handle block)
  complete handle

/-- A locator that stands for no earlier storage. -/
def noStorage : Locator := ⟨0, 0, 0⟩

/-- The temporary table, which is created when it is needed first. -/
def temporaryTable : Statement Relation := do
  let c ← self
  match c.temporary with
  | some table => return table
  | none =>
    let table : Relation :=
      { locator := Plan.locator (Plan.firstTemporary + c.id), temporary := true }
    call table (.create noStorage false)
    modifyClient fun c => { c with temporary := some table }
    return table

/-- Adds a block to the temporary table, which is emptied before if it is full. -/
def writeTemporary : Statement Unit := do
  let table ← temporaryTable
  if Plan.temporaryBlocks ≤ (← self).temporaryBlocks then
    call table (.truncate 0)
    modifyClient fun c => { c with temporaryBlocks := 0 }
  call table (.append (← self).temporaryBlocks ())
  modifyClient fun c => { c with temporaryBlocks := c.temporaryBlocks + 1 }

/-- The other one of the two numbers of a scratch table. -/
def otherNumber (id : UInt32) (number : Oid) : Oid :=
  let base := Plan.firstScratch + id
  if number = base then base + Plan.relocationOffset else base

/-- Builds the scratch table anew under its other number. -/
def relocate : Statement Unit := do
  let c ← self
  let old := c.scratch
  let new : Relation := { locator := Plan.locator (otherNumber c.id old.locator.number) }
  call new (.create old.locator false)
  call new (.lengthen 0 Plan.scratchBlocks)
  call old (.truncate 0)
  call new .sync
  modifyClient fun c => { c with scratch := new }

/-- Draws a statement and carries it out. -/
def statement : Statement Unit := do
  let n ← draw 100
  if n < 40 then scan
  else if n < 65 then lookUp
  else if n < 85 then update
  else if n < 92 then readAhead
  else if n < 97 then writeTemporary
  else relocate

/-! ## Setting up -/

/-- A client before its scratch table is there. -/
def new (id : UInt32) (tables : List Relation) (tableBlocks : UInt32) (concurrency : Nat) :
    Client where
  id
  backend := .new Plan.session concurrency
  generator := .ofSeed (id.toUInt64 + 1)
  tables
  tableBlocks
  scratch := { locator := Plan.locator (Plan.firstScratch + id) }

/-- Creates a relation with a number of blank blocks. -/
def createBlank (relation : Relation) (blocks : UInt32) : Statement Unit := do
  call relation (.create noStorage false)
  call relation (.lengthen 0 blocks)

/-- Creates the scratch table. -/
def createScratch : Statement Unit := do
  createBlank (← self).scratch Plan.scratchBlocks

/-- Creates blank relations one after the other. -/
def createAll (blocks : UInt32) : List Relation → Statement Unit
  | [] => pure ()
  | relation :: rest => do
    createBlank relation blocks
    createAll blocks rest

end Client

end BlockLedger
