import EventDocs.Block.Scan

/-
Analysis of a batch of files: the blocks of all of them, stably sorted by
precedence, so that blocks of one precedence stay in the order of the files and
of their lines. It is all or nothing: one problem anywhere fails the batch, and
then every problem is listed.

Files whose path says that they hold a JSON schema or a sample are message
blocks as a whole.
-/

namespace EventDocs

-- ============================================================ inputs

/-- A file that has been read. -/
structure Input where
  file : String
  path : String
  text : String
deriving DecidableEq, Repr, Inhabited

namespace Input

/-- In the path of a file that is a schema as a whole. -/
def schemaMark : List Char := ['.', 's', 'c', 'h', 'e', 'm', 'a', '.', 'j', 's', 'o', 'n']

/-- In the path of a file that is an example as a whole. -/
def sampleMark : List Char := ['.', 's', 'a', 'm', 'p', 'l', 'e', '.', 'j', 's', 'o', 'n']

/-- The content type of a file that is a message block as a whole. -/
def wholeContent? (i : Input) : Option ContentType :=
  if Text.occursIn schemaMark i.path.toList then some .jsonSchema
  else if Text.occursIn sampleMark i.path.toList then some .example
  else none

/-- The file name up to its first dot. -/
def stem (i : Input) : String :=
  .ofList (i.file.toList.takeWhile (· ≠ '.'))

/-- The block that is the whole file, describing the message its name says. -/
def wholeBlock (i : Input) (t : ContentType) : Block :=
  let token : Token :=
    { kind := .wholeFile, literal := "", metadata := "", line := 0, column := 0
      source := ⟨i.file, i.path⟩ }
  { beginToken := token
    label :=
      { category := some .message, contentType := some t, name := i.stem, id := i.stem }
    precedence := .message
    value := i.text
    endToken := token }

/-- The outcomes of one file. -/
def outcomes (r : Repository) (env : Environment) (i : Input) : List Outcome :=
  match i.wholeContent? with
  | some t => [.ok (i.wholeBlock t)]
  | none => Block.outcomes r env ⟨i.file, i.path⟩ i.text

end Input

-- ============================================================ the batch

/-- The most files that may be under analysis at the same time. -/
def maxConcurrency : Nat := 0x1fffffffffffffff

/-- Why a batch gives no blocks. -/
inductive AnalysisFailure where
  /-- Problems of the files, in the order of the files and of their lines. -/
  | problems (all : List LocatedProblem)
  /-- More files at the same time than `maxConcurrency`. -/
  | tooConcurrent
deriving DecidableEq, Repr

/-- One line for each problem and a closing line. -/
def AnalysisFailure.message : AnalysisFailure → String
  | problems all =>
    "\n".intercalate (all.map fun p => " - " ++ p.message) ++
      "\nanalysis failed: not all documents could be parsed"
  | tooConcurrent => "too many files at the same time"

/-- The blocks of a batch, stably sorted by precedence. -/
def analyze (r : Repository) (env : Environment) (inputs : List Input) :
    Except AnalysisFailure (List Block) :=
  let outcomes := inputs.flatMap (Input.outcomes r env)
  match Outcome.problems outcomes with
  | [] => .ok (Block.sorted (Outcome.blocks outcomes))
  | problems => .error (.problems problems)

/-- Analysis of `concurrency` files at a time. How many there are changes
nothing in the result, as long as that many can be asked for. -/
def analyzeConcurrently (concurrency : Nat) (r : Repository) (env : Environment)
    (inputs : List Input) : Except AnalysisFailure (List Block) :=
  if maxConcurrency < concurrency then .error .tooConcurrent else analyze r env inputs

end EventDocs
