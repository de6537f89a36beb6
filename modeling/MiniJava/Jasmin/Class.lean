import MiniJava.Jasmin.Code

namespace MiniJava.Jasmin

open Tac

/-- An instruction without lines leaves a comment in their place. -/
def linesOf : Outcome → List (Line Opcode)
  | .ok lines => lines
  | .error f => [.comment ("ERROR: " ++ f.text)]

variable (c : Tac.Class)

def outcomes (m : Tac.Method) : Nat → List Instr → List Outcome × Nat
  | n, [] => ([], n)
  | n, i :: is =>
    let (first, n') := instr c m n i
    let (rest, n'') := outcomes m n' is
    (first :: rest, n'')

/-- Follows the depth through the outcomes and gathers their findings, adding one for the first
instruction that takes too much. -/
def track (method : String) : Depth → Bool → List Outcome → Depth × List Finding
  | d, _, [] => (d, [])
  | d, found, o :: os =>
    let (d', fits) := d.applyAll (linesOf o)
    let own := match o with
      | .ok _ => []
      | .error f => [f]
    let under := if fits || found then [] else [.underflow method]
    let (last, rest) := track method d' (found || !fits) os
    (last, own ++ under ++ rest)

structure Body where
  lines : List (Line Opcode)
  maxDepth : Int
  findings : List Finding
  next : Nat

def body (n : Nat) (m : Tac.Method) : Body :=
  let (os, next) := outcomes c m n m.code
  let (depth, findings) := track m.name {} false os
  let lines := os.flatMap linesOf
  { lines := if m.isConstructor && !m.endsWithReturn then lines ++ [returnLine .void] else lines
    maxDepth := depth.max
    findings
    next }

/-- Comparison labels are numbered through the whole class. -/
def bodies : Nat → List Tac.Method → List Body
  | _, [] => []
  | n, m :: ms =>
    let b := body c n m
    b :: bodies b.next ms

def methodHeader (m : Tac.Method) : String :=
  if m.isConstructor then ".method public <init>()V"
  else
    ".method" ++ (if m.isPublic then " public" else "") ++ (if m.isStatic then " static" else "") ++
      s!" {m.name}{(c.methodDescriptor m).text}"

def lineText (pad : String) : Line Opcode → String
  | .label name => (Line.label name).text Opcode.text
  | l => pad ++ l.text Opcode.text

def methodLines (pad : String) (m : Tac.Method) (b : Body) : List String :=
  [methodHeader c m, s!"{pad}.limit stack {b.maxDepth}", s!"{pad}.limit locals {m.slots.limit}"] ++
    b.lines.map (lineText pad) ++ [".end method"]

def classLines (indent : Nat) (bs : List Body) : List String :=
  let pad := "".pushn ' ' indent
  let methods := (c.methods.zip bs).map fun (m, b) ↦ methodLines c pad m b
  [".class public " ++ c.name, ".super " ++ c.superPath, ""] ++
    c.fields.map (fun f ↦ s!".field public {f.name} {(c.jtype f.ty).text}") ++
    (if c.fields.isEmpty then [] else [""]) ++ [""].intercalate methods

def assemble (indent : Nat) : String × List Finding :=
  let bs := bodies c 0 c.methods
  (String.join ((classLines c indent bs).map (· ++ "\n")), bs.flatMap (·.findings))

end MiniJava.Jasmin
