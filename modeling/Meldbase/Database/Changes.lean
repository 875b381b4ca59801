import Meldbase.Database.IndexKey

/-! # Committed changes

A commit publishes a batch of changes under its token.  Queues are charged for
the bytes a batch retains: a fixed envelope, the texts, and the canonical size
of the document images.
-/
namespace Meldbase.Database
open Logical (maxUint16 maxUint32 maxUint64)

/-! ### Canonical sizes -/

def sizeAt (depth size : ℕ) : Option ℕ := if 64 < depth then none else some size

mutual
def canonicalValueSize (depth : ℕ) : Value → Option ℕ
  | .null => sizeAt depth 1
  | .bool _ => sizeAt depth 2
  | .int _ => sizeAt depth 9
  | .time _ => sizeAt depth 9
  | .float f => if f.isFinite then sizeAt depth 9 else none
  | .id _ => sizeAt depth 17
  | .string s => if !validUTF8 s || maxUint32 < s.length then none else sizeAt depth (5+s.length)
  | .binary b => if maxUint32 < b.length then none else sizeAt depth (5+b.length)
  | .object fields =>
    if 64 < depth ∨ 64 < depth+1 ∨ maxUint32 < fields.length then none
    else (canonicalFieldsSize (depth+1) 4 fields).map fun size => (size+1) % 2 ^ 64
  | .array values =>
    if 64 < depth ∨ maxUint32 < values.length then none else canonicalItemsSize depth 5 values
def canonicalFieldsSize (depth total : ℕ) : Document → Option ℕ
  | [] => some total
  | (name,v) :: rest =>
    if !validField name || maxUint16 < name.length then none
    else match canonicalValueSize (depth+1) v with
      | none => none
      | some size =>
        if maxUint64 < total + (2+name.length) + size then none
        else canonicalFieldsSize depth (total + (2+name.length) + size) rest
def canonicalItemsSize (depth total : ℕ) : List Value → Option ℕ
  | [] => some total
  | v::rest =>
    match canonicalValueSize (depth+1) v with
    | none => none
    | some size => if maxUint64 < total+size then none else canonicalItemsSize depth (total+size) rest

end

def canonicalDocumentSize (d : Document) : Option ℕ :=
  if maxUint32 < d.length then none else canonicalFieldsSize 0 4 d

/-! ### Changes and batches -/

inductive Operation where
  | insert
  | update
  | delete
  | createCollection
  | createIndex
  | replaceIndex
  deriving DecidableEq

/-- A document or catalog edit.  No changed paths means that they are unknown;
the sizes are those recorded by the write path, if it did. -/
structure Change where
  collection : Bytes
  operation : Operation
  documentID : DocumentID
  (before after : Option Document)
  index : Option IndexDefinition := none
  changedPaths : List Bytes := []
  dispatchBytes : Option ℕ := none
  afterCanonicalBytes : Option ℕ := none

structure ChangeBatch where
  token : ℕ
  changes : List Change

def changeDispatchEnvelopeBytes : ℕ := 96
def pathBytes (paths : List Bytes) : ℕ := (paths.map fun path => path.length+8).sum
def indexDefinitionBytes (definition : IndexDefinition) : ℕ :=
  definition.name.length + ((definition.fields.head?.map fun f => f.field.length).getD 0) +
    pathBytes (definition.fields.map IndexField.field)
def changeDispatchBaseBytes (c : Change) : Option ℕ :=
  let total := changeDispatchEnvelopeBytes+c.collection.length+pathBytes c.changedPaths +
    (c.index.map indexDefinitionBytes).getD 0
  if maxUint64 < total then none else some total
def chargeImage (bytes : Option ℕ) (image : Option Document) : Option ℕ :=
  match bytes,image with
  | none,_ => none
  | some bytes,none => some bytes
  | some bytes,some d =>
    match canonicalDocumentSize d with
    | none => none
    | some size => if maxUint64 < bytes+size then none else some (bytes+size)
def changeBytes (c : Change) : Option ℕ :=
  match c.dispatchBytes with
  | some bytes => some bytes
  | none => chargeImage (chargeImage (changeDispatchBaseBytes c) c.before) c.after

/-- The charge of a batch; one that cannot be measured takes the whole budget. -/
def changeBatchDispatchBytes (b : ChangeBatch) : ℕ :=
  let total := b.changes.foldl (fun total c =>
    match total,changeBytes c with
    | some total,some bytes => if maxUint64 < total+bytes then none else some (total+bytes)
    | _,_ => none) (some 0)
  total.getD maxUint64

end Meldbase.Database
