import CbMpc.Barrett
import CbMpc.Paillier

/-!
# The inverse of a modulus modulo its totient

`mod_t::N_inv_mod_phiN_2048` over its word arithmetic. The totient is even, so no inversion
modulo it is made. The inverses modulo the odd numbers `p + q - 1` and `N` are combined instead,
the first one by `scr_inv` and the second one under random masks.
-/
namespace CbMpc

open WordArray

end CbMpc
