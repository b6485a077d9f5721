import Assembler.Fault
import Assembler.Line

/-! # Problems

A problem is something wrong with a program that is reported while the run goes on.  A diagnostic is
a problem at a site. The wording of a few problems depends on the dialect. -/

namespace Assembler
set_option autoImplicit false

/-- What an address out of range belongs to. -/
inductive AddressRole where
  | load
  | label (name : String)
  | afterWords
  | afterBytes
  | afterCommand (mnemonic : String)
  | operandOf (mnemonic : String)
  | programEnd
  deriving DecidableEq, Repr

def AddressRole.text : AddressRole → String
  | .load => "адрес загрузки"
  | .label name => " для метки '" ++ name ++ "'"
  | .afterWords => "после RESW"
  | .afterBytes => "после RESB"
  | .afterCommand m => " после команды " ++ m
  | .operandOf m => "Операнд " ++ m
  | .programEnd => "конечный адрес"

/-- What is wrong with a program. -/
inductive Problem where
  | outOfRange (address : Int) (role : AddressRole)
  -- the frame of the program
  | repeatedStart
  | badStartOperand
  | zeroLoadAddress
  | nonzeroLoadAddress
  | unnamedStart
  | beforeStart
  | badEndOperand
  | badEndKind (fault : Fault)
  | badEntryPoint
  | noStart
  | noEnd
  -- labels and names
  | duplicateLabel (name : String)
  | clashingLabel
  | undefinedReference (name : String)
  -- storage
  | badWord
  | wordRange (value : Int)
  | badWordReserve
  | negativeWords
  | badByte
  | byteRange (value : Int)
  | badByteReserve
  | negativeBytes
  -- commands
  | unknownCommand (mnemonic : String)
  | badOperands (mnemonic : String) (size : Int)
  | immediateRange (value : Int)
  | stringTooLong (value : Int)
  | relativeOperand
  | directOperand
  | relativeInAbsolute
  -- sections
  | badSection
  | unnamedSection
  | repeatedSection (label : Option String)
  | badExport
  | repeatedExport
  | badImport
  | clashingImport
  | exportWithoutAddress
  -- faults met while records were made
  | badRow (cause : Fault)
  | fault (cause : Fault)
  deriving DecidableEq, Repr

def Problem.text (d : Dialect) : Problem → String
  | .outOfRange a role =>
    "Адрес " ++ Text.markedHex a ++ " вне диапазона 000000-FFFFFF (" ++ role.text ++ ")"
  | .repeatedStart => "Повторная директива START"
  | .badStartOperand => "Неккоректный адрес в START"
  | .zeroLoadAddress => "Нулевой адрес загрузки в абсолютном формате"
  | .nonzeroLoadAddress => "Не нулевой адрес загрузки в относительном формате"
  | .unnamedStart => "Отстуствует метка у директивы START"
  | .beforeStart => "Программа не начинается с директивы START"
  | .badEndOperand => "Неккоректный формат директивы END"
  | .badEndKind x => "Некорректный операнд директивы END: " ++ x.message
  | .badEntryPoint =>
    match d.layout, d.strategy with
    | .absolute, .twoPass | .relocatable, .twoPass => "Задан некорректный адрес точки входа"
    | _, _ => "Некорректный адрес точки входа"
  | .noStart => "Отсутствует директива START"
  | .noEnd => "Отсутствует директива END"
  | .duplicateLabel name => "Дублирующаяся метка '" ++ name ++ "'"
  | .clashingLabel => "Некорректная метка"
  | .undefinedReference name =>
    match d.layout with
    | .sectioned => "Есть ссылка на несуществующее символическое имя " ++ name
    | _ => "Есть ссылка на несуществуещее символическое имя " ++ name
  | .badWord => "Некорректный операнд директивы WORD"
  | .wordRange v => "Значение " ++ Text.decimal v ++ " выходит за пределы 3-байтного слова"
  | .badWordReserve => "Некорректный формат директивы RESW"
  | .negativeWords => "Отрицательное количество слов в RESW"
  | .badByte => "Некорректный операнд директивы BYTE"
  | .byteRange v => "Значение " ++ Text.decimal v ++ " выходит за пределы 1 Байта"
  | .badByteReserve => "Некорректный формат директивы RESB"
  | .negativeBytes => "Отрицательное количество слов в RESB"
  | .unknownCommand m => "Неизвестная команда '" ++ m ++ "'"
  | .badOperands m size =>
    "Некорректный формат команды " ++ m ++ " в " ++ Text.decimal size ++ " байт"
  | .immediateRange v => "Непосредственное значение " ++ Text.decimal v ++ " не влезает в 1 байт"
  | .stringTooLong v => "Строковая константа c'" ++ Text.decimal v ++ "' не влезает в 1 байт"
  | .relativeOperand => "Встретился операнд с относительной адресацией"
  | .directOperand => "Встретился операнд с прямой адресацией"
  | .relativeInAbsolute => "Относительная адресация в абсолютном формате"
  | .badSection => "Некорректный формат директивы CSECT"
  | .unnamedSection => "Отсутствует метка у директивы CSECT"
  | .repeatedSection label => "Повторная секция \"" ++ labelText label ++ "\" не допустима"
  | .badExport => "Некорректный формат EXTDEF"
  | .repeatedExport => "Переопределение на EXTDEF"
  | .badImport => "Некорректный формат EXTREF"
  | .clashingImport =>
    match d.strategy with
    | .twoPass => "Некоррректный extref"
    | .onePass => "Некорректный extref"
  | .exportWithoutAddress => "Не всем внешним именам было присвоено значение"
  | .badRow x => x.message
  | .fault x =>
    if d = .absoluteTwoPass then "Неизвестное символическое имя (" ++ x.message ++ ")"
      else x.message

/-- Whether the wording of a problem exists: the numbers it tells have to have decimal forms. -/
def Problem.hasText : Problem → Bool
  | .wordRange v | .byteRange v | .immediateRange v | .stringTooLong v => Text.hasDecimal v
  | .badOperands _ size => Text.hasDecimal size
  | _ => true

/-- Problems that are about to be reported; one without a wording is a fault instead. -/
def Problem.worded (ps : List Problem) : Except Fault (List Problem) :=
  if ps.all Problem.hasText then .ok ps else .error .noDecimal

/-- Where a problem is. -/
inductive Site where
  /-- The program as a whole. -/
  | program
  /-- A line by its number. -/
  | line (number : Int)
  /-- An address. -/
  | address (a : Int)
  /-- An address of a section. -/
  | inSection (label : Option String) (a : Int)
  deriving DecidableEq, Repr

/-- The wording of a site, which stands in front of the problem. -/
def Site.text : Site → String
  | .program => ""
  | .line n => "Строка " ++ Text.decimal n ++ ": "
  | .address a => " [" ++ Text.address a ++ "]: "
  | .inSection label a => "[" ++ labelText label ++ ":" ++ Text.address a ++ "]: "

/-- A problem at a site. -/
structure Diagnostic where
  site : Site
  problem : Problem
  deriving DecidableEq, Repr

def Diagnostic.text (d : Dialect) (x : Diagnostic) : String := x.site.text ++ x.problem.text d

def Site.report (site : Site) (ps : List Problem) : List Diagnostic := ps.map fun p => ⟨site, p⟩

end Assembler
