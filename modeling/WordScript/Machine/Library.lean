/-
A library of host functions.

The four printing functions are what the console offers to scripts.  The others
compute with words, strings and addresses; a host may bind any of them by name.
Arguments lie on the stack, the last one on top.
-/
import WordScript.Decimal.Shortest
import WordScript.Machine.Native

namespace WordScript.Library

/-- Prints the string at an address. -/
def print : Native :=
  .pop fun address => .readString address fun text => .print text .done

/-- Prints an integer. -/
def printInt : Native :=
  .pop fun w => .print (toString w.toInt) .done

/-- Prints a floating-point number. -/
def printFloat : Native :=
  .pop fun w => .print (Decimal.text32 w) .done

/-- Prints a truth value. -/
def printBool : Native :=
  .pop fun w => .print (if w.toBool then "true" else "false") .done

/-- Adds three words. -/
def add3 : Native :=
  .pop fun c => .pop fun b => .pop fun a => .push (a + b + c) .done

/-- Halves a floating-point number. -/
def half : Native :=
  .pop fun w => .push (Word.ofFloat (w.toFloat * 0.5)) .done

/-- Negates a truth value. -/
def flip : Native :=
  .pop fun w => .push (Word.ofBool (!w.toBool)) .done

/-- Joins two strings into a new one. -/
def concat : Native :=
  .pop fun b => .pop fun a =>
    .readString a fun left => .readString b fun right =>
      .allocString (left ++ right) fun address => .push address .done

/-- Reads the word at an address. -/
def peek : Native :=
  .pop fun address => .readWord address fun w => .push w .done

/-- Writes a word to an address. -/
def poke : Native :=
  .pop fun value => .pop fun address => .writeWord address value .done

/-- The functions that the console offers. -/
def console : ExternalTable :=
  ⟨[("Print", print), ("PrintInt", printInt), ("PrintFloat", printFloat),
    ("PrintBool", printBool)]⟩

/-- Every function of the library. -/
def all : ExternalTable :=
  ⟨console.functions ++
    [("Nop", .done), ("Fail", .fail "boom"), ("Add3", add3), ("Half", half), ("Flip", flip),
     ("Concat", concat), ("Peek", peek), ("Poke", poke)]⟩

end WordScript.Library
