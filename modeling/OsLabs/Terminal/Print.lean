import OsLabs.Terminal.Stdio
import OsLabs.Terminal.Stdlib

/-!
# Formatted output (`lib/stdio.c`, `os/os.c`, `os/drivers/uart.c`)

`PRINT` is the same in 002Calculadora and 003InterruptHandler, where `uart_puts` is called
`os_write`.  An argument that is missing or of another type than its conversion, a conversion that
overflows and one that is longer than `conversion` are the outcome `none`.  `ftoa` works with
floating-point numbers and is a parameter.
-/

namespace OsLabs.Terminal

/-- `uart_putc` -/
def uartPutc (c : Char) (u : Uart) : Uart := { u with tx := u.tx ++ [c] }

/-- `uart_puts`, `os_write` -/
def uartPuts (s : List Char) (u : Uart) : Uart := { u with tx := u.tx ++ cString s }

/-- The text of a number on its way through `conversion`. -/
def putConversion (text : Option (List Char)) (u : Uart) : Option Uart := do
  let conversion ← text
  if conversion.length ≤ CONVERSION_SIZE then some (uartPuts conversion u) else none

variable {F : Type} (ftoa : F → Option (List Char))

/-- `PRINT`: the loop over the format. -/
def print (format : List Char) (args : List (Value F)) (u : Uart) : Option Uart :=
  match format with
  | [] => some u
  | '%' :: 's' :: format =>
    match args with
    | .str s :: args => print format args (uartPuts s u)
    | _ => none
  | '%' :: 'd' :: format =>
    match args with
    | .int d :: args => do
      let u ← putConversion (itoa d) u
      print format args u
    | _ => none
  | '%' :: 'f' :: format =>
    match args with
    | .float f :: args => do
      let u ← putConversion (ftoa f) u
      print format args u
    | _ => none
  -- also the `default` of the conversions, which prints the `%`
  | c :: format => print format args (uartPutc c u)

end OsLabs.Terminal
