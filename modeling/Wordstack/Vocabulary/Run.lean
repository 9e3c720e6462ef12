import Wordstack.Vocabulary.Arithmetic
import Wordstack.Vocabulary.Control
import Wordstack.Vocabulary.Scopes
import Wordstack.Vocabulary.Stack
import Wordstack.Vocabulary.Strings

/-!
# What each word does
-/

namespace Wordstack

open Vocabulary in
/-- What a word of the language does with its inputs. -/
def Builtin.run {E : Embedding} (engine : Engine E) : Builtin → Body E
  | dup => Vocabulary.dup
  | drop => Vocabulary.drop
  | swap => Vocabulary.swap
  | clear => Vocabulary.clear
  | add => arithmetic .add
  | subtract => arithmetic .subtract
  | multiply => arithmetic .multiply
  | divide => arithmetic .divide
  | equal => equality true
  | notEqual => equality false
  | less => ordering (· == .lt)
  | greater => ordering (· == .gt)
  | lessEqual => ordering (· != .gt)
  | greaterEqual => ordering (· != .lt)
  | and => logic (· && ·)
  | or => logic (· || ·)
  | not => negation
  | append => copied withLast
  | appendInPlace => inPlace withLast
  | prepend => copied withFirst
  | prependInPlace => inPlace withFirst
  | concat => Vocabulary.concat
  | concatInPlace => Vocabulary.concatInPlace
  | count | length => Vocabulary.count
  | first => endElement List.head? .firstOfEmpty
  | last => endElement List.getLast? .lastOfEmpty
  | nth => Vocabulary.nth
  | join => Vocabulary.join
  | split => Vocabulary.split
  | words => Vocabulary.words
  | textConcat => Vocabulary.textConcat
  | call => Vocabulary.call engine
  | choose => Vocabulary.choose engine
  | times => Vocabulary.times engine
  | each => Vocabulary.each engine
  | map => Vocabulary.map engine
  | newScope => Vocabulary.newScope
  | getScope => Vocabulary.getScope
  | setField => Vocabulary.setField
  | getField => Vocabulary.getField
  | increase => Vocabulary.increase
  | decrease => Vocabulary.decrease
  | increment => adjustBy 1
  | decrement => adjustBy (-1)
  | print => writeWith ""
  | puts => writeWith "\n"

end Wordstack
