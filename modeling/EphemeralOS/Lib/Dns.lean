import Mathlib.Algebra.Group.Nat.Defs
import Mathlib.Data.List.Basic

/-!
# DNS messages on the wire

Names, questions, records, queries and responses as they are sent. A name is a
sequence of labels that ends with a zero byte or with a compression pointer;
numbers are sent high byte first. `decodeLabels` reads a name back
(`decodeLabels_wire`).
-/

namespace Dns

def be16 (w : UInt16) : List UInt8 := [UInt8.ofNat (w.toNat / 256), UInt8.ofNat w.toNat]

def be32 (w : UInt32) : List UInt8 :=
  [UInt8.ofNat (w.toNat / 2 ^ 24), UInt8.ofNat (w.toNat / 2 ^ 16), UInt8.ofNat (w.toNat / 2 ^ 8),
    UInt8.ofNat w.toNat]

structure Label where
  bytes : List UInt8
  pos : 0 < bytes.length
  le : bytes.length ≤ 63

def Label.wire (l : Label) : List UInt8 := UInt8.ofNat l.bytes.length :: l.bytes

/-- How a name ends. -/
inductive NameEnd
  | root
  | pointer (hi lo : UInt8) (h : hi &&& 0xC0 = 0xC0)

def NameEnd.wire : NameEnd → List UInt8
  | root => [0]
  | pointer hi lo _ => [hi, lo]

/-- A name: labels and a zero, labels and a pointer, or a pointer alone. -/
structure Name where
  labels : List Label
  ending : NameEnd

def Name.wire (n : Name) : List UInt8 := n.labels.flatMap Label.wire ++ n.ending.wire

/-- A name that ends with a compression pointer. -/
def Name.Compressed (n : Name) : Prop := n.ending ≠ .root

structure Question where
  name : Name
  type : UInt16
  cls : UInt16

def Question.wire (q : Question) : List UInt8 := q.name.wire ++ (be16 q.type ++ be16 q.cls)

/-- A query with one question, recursion desired. -/
structure Query where
  id : UInt16
  question : Question

def Query.header (q : Query) : List UInt8 :=
  be16 q.id ++ (be16 0x0100 ++ (be16 1 ++ (be16 0 ++ (be16 0 ++ be16 0))))

def Query.wire (q : Query) : List UInt8 := q.header ++ q.question.wire

structure Record where
  name : Name
  type : UInt16
  cls : UInt16
  ttl : UInt32
  rdata : List UInt8
  rdata_lt : rdata.length < 65536

def Record.fields (r : Record) : List UInt8 :=
  be16 r.type ++ (be16 r.cls ++ (be32 r.ttl ++ be16 (UInt16.ofNat r.rdata.length)))

def Record.wire (r : Record) : List UInt8 := r.name.wire ++ (r.fields ++ r.rdata)

def Record.IsAddress (r : Record) : Prop := r.type = 1 ∧ r.rdata.length = 4

instance (r : Record) : Decidable r.IsAddress := inferInstanceAs (Decidable (_ ∧ _))

def Record.address (r : Record) : UInt32 :=
  UInt32.ofNat (r.rdata.foldl (fun n b => n * 256 + b.toNat) 0)

/-- A response to one question; `rest` is what follows the answers. -/
structure Response where
  id : UInt16
  flags : UInt16
  nscount : UInt16
  arcount : UInt16
  question : Question
  answers : List Record
  rest : List UInt8
  qr : flags &&& 0x8000 ≠ 0
  answers_lt : answers.length < 65536

def Response.header (r : Response) : List UInt8 :=
  be16 r.id ++ (be16 r.flags ++ (be16 1 ++ (be16 (UInt16.ofNat r.answers.length) ++
    (be16 r.nscount ++ be16 r.arcount))))

def Response.wire (r : Response) : List UInt8 :=
  r.header ++ (r.question.wire ++ (r.answers.flatMap Record.wire ++ r.rest))

@[simp] theorem length_be16 (w : UInt16) : (be16 w).length = 2 := rfl

@[simp] theorem length_be32 (w : UInt32) : (be32 w).length = 4 := rfl

@[simp] theorem length_label (l : Label) : l.wire.length = l.bytes.length + 1 := rfl

@[simp] theorem length_question (q : Question) : q.wire.length = q.name.wire.length + 4 := by
  simp [Question.wire]

@[simp] theorem length_fields (r : Record) : r.fields.length = 10 := rfl

@[simp] theorem length_record (r : Record) :
    r.wire.length = r.name.wire.length + 10 + r.rdata.length := by
  simp [Record.wire, Nat.add_assoc]

@[simp] theorem length_header (r : Response) : r.header.length = 12 := rfl

@[simp] theorem length_query (q : Query) : q.wire.length = 12 + q.question.name.wire.length + 4 := by
  rw [Query.wire, List.length_append, length_question]
  rfl

theorem Name.wire_pos (n : Name) : 0 < n.wire.length := by
  rw [Name.wire, List.length_append]
  cases n.ending with
  | root => exact Nat.succ_pos _
  | pointer hi lo h => exact Nat.succ_pos _

/-- The labels in front of the zero that ends a name, and what follows the zero. -/
def decodeLabels : List UInt8 → Option (List (List UInt8) × List UInt8)
  | [] => none
  | n :: l =>
    if n = 0 then some ([], l)
    else if 63 < n.toNat ∨ l.length < n.toNat then none
    else (decodeLabels (l.drop n.toNat)).map fun p => (l.take n.toNat :: p.1, p.2)
termination_by l => l.length
decreasing_by
  rw [List.length_drop, List.length_cons]
  omega

/-- **What the labels of a name are encoded to decodes to them.** -/
theorem decodeLabels_wire (ls : List Label) (rest : List UInt8) :
    decodeLabels (ls.flatMap Label.wire ++ 0 :: rest) = some (ls.map Label.bytes, rest) := by
  induction ls with
  | nil =>
    rw [List.flatMap_nil, List.nil_append, decodeLabels, if_pos rfl]
    rfl
  | cons l ls ih =>
    have hpos := l.pos
    have hle := l.le
    have hlen : (UInt8.ofNat l.bytes.length).toNat = l.bytes.length := by
      rw [UInt8.toNat_ofNat']
      omega
    have hne : UInt8.ofNat l.bytes.length ≠ 0 := by
      intro h0
      rw [h0] at hlen
      change 0 = _ at hlen
      omega
    rw [List.flatMap_cons, Label.wire, List.cons_append, List.cons_append, List.append_assoc,
      decodeLabels, if_neg hne, hlen, if_neg, List.drop_left, List.take_left, ih]
    · rfl
    · rw [List.length_append]
      omega

end Dns
