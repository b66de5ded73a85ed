import LayeredConfig.Pipeline
/-!
# Stock filters

Small filters that replace, extend, drop and protect documents, or that fail.
-/

namespace LayeredConfig

/-- The hooks of a filter that may be changed. -/
inductive Hook
  | contains
  | read
  | readMany
  | write
  | emptyDeletes
  | delete
  | rename
  | list
  | deleteAll
  | collectionNames
  | collection
  deriving DecidableEq

/-- The name of a hook in messages. -/
def Hook.name : Hook → String
  | .contains => "exists"
  | .read => "read"
  | .readMany => "read_multiple"
  | .write => "write"
  | .emptyDeletes => "write_empty_is_delete"
  | .delete => "delete"
  | .rename => "rename"
  | .list => "list_all"
  | .deleteAll => "delete_all"
  | .collectionNames => "get_all_collection_names"
  | .collection => "create_collection"

/-- What a stock filter does. -/
inductive Stock.Task
  /-- Passes everything on. -/
  | pass
  /-- Puts a document in place of what is read or written. -/
  | replace (d : Document) (on : List Hook)
  /-- Sets a key of each document that is read or written. -/
  | append (key : String) (value : Value) (on : List Hook)
  /-- Drops documents that are read or written. -/
  | drop (on : List Hook)
  /-- Writes empty documents. -/
  | empty
  /-- Forbids to delete or rename a document. -/
  | protect (name : String)
  /-- Forbids to delete documents all at once. -/
  | noBulk
  /-- Permits everything, and says of each document that it is there. -/
  | allow
  /-- Lists names in another order, some twice, and further ones. -/
  | shuffle
  /-- Adds to the name of the collection. -/
  | rename (ending : String)
  /-- Fails in a hook. -/
  | fail (hook : Hook)
  /-- Passes everything on, in the default collection only. -/
  | probe (name : String)

/-- A stock filter: what it does, the collection that it stays out of, and whether a document for
which there is nothing to write is deleted. -/
structure Stock where
  id : String
  task : Stock.Task
  skip : Option String
  emptyDeletes : Bool

namespace Stock

variable {σ : Type}

/-- The failure of a hook. -/
def refusal (hook : Hook) : Failure := .io (.told (hook.name ++ " refused"))

/-- What a filter makes of a document that is read or written in a hook. -/
def Task.change (t : Task) (hook : Hook) (d : Option Document) : Option Document :=
  match t with
  | .replace new on => if on.contains hook then some new else d
  | .append key v on => if on.contains hook then d.map (·.insert key v) else d
  | .drop on => if on.contains hook then none else d
  | .empty => if hook = .write then some ∅ else d
  | _ => d

/-- Whether everything is permitted. -/
def Task.allows : Task → Bool
  | .allow => true
  | _ => false

/-- The document that may not be deleted or renamed. -/
def Task.protected? : Task → Option String
  | .protect name => some name
  | _ => none

/-- Goes on unless a filter fails in a hook. -/
def guard {α : Type} (f : Stock) (hook : Hook) (x : Run σ α) : Run σ α :=
  match f.task with
  | .fail h => if h = hook then .fail (refusal hook) else x
  | _ => x

/-- Whether something stays permitted for a name. -/
def permits (f : Stock) (names : List String) (b : Bool) : Bool :=
  f.task.allows || (b && !names.any (f.task.protected? = some ·))

/-- Whether documents may be deleted all at once. -/
def permitsBulk (f : Stock) (start : String) (b : Bool) : Bool :=
  match f.task with
  | .allow => true
  | .noBulk => false
  | .protect name => b && !name.startsWith start
  | _ => b

/-- The hooks of a stock filter. -/
def hooks (f : Stock) : Hooks σ where
  contains _ b := f.guard .contains (pure (f.task.allows || b))
  read _ d := f.guard .read (pure (f.task.change .read d))
  readMany _ ds := f.guard .readMany (pure (.ofList
    (ds.entries.filterMap fun e => (f.task.change .readMany (some e.2)).map (e.1, ·))))
  write _ d := f.guard .write (pure (f.task.change .write d))
  emptyDeletes _ := f.guard .emptyDeletes (pure f.emptyDeletes)
  delete name b := f.guard .delete (pure (f.permits [name] b))
  rename old new b := f.guard .rename (pure (f.permits [old, new] b))
  list _ names := f.guard .list (pure (match f.task with
    | .shuffle => names.reverse ++ ["zzz.last", "aaa.first", "aaa.first"]
    | _ => names))
  deleteAll start b := f.guard .deleteAll (pure (f.permitsBulk start b))
  collectionNames names := f.guard .collectionNames (pure (match f.task with
    | .shuffle => names ++ ["language.fr", "language.de"]
    | _ => names))
  collectionName name := match f.task with
    | .rename ending => name ++ ending
    | _ => name

/-- The filter for a collection. -/
def derive (f : Stock) (collection : String) : Run σ (Option Stock) :=
  f.guard .collection (pure (match f.task with
    | .probe _ => none
    | _ => if f.skip = some collection then none else some f))

end Stock

end LayeredConfig
