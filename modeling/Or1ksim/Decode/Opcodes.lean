import Or1ksim.Decode.Operands

/-!
# The opcode table

`or1ksim_or32_opcodes`, and what the disassembler reads in an encoding: `or1ksim_or32_extract` takes
the bits of a letter, and `or1ksim_extend_imm` extends them from the width of the first entry that
uses the letter.
-/

namespace Or1ksim.Decode

/-- `or1ksim_or32_opcodes` with the names of the functions. `HAVE_UNSIGNED_XORI` decides on `l.xori`;
`HAS_CUST` is never set. -/
def or1ksimOr32Opcodes (unsignedXori : Bool) : List Opcode :=
  [ ⟨"l.j", "N", "00 0x0  NNNNN NNNNN NNNN NNNN NNNN NNNN", "l_j"⟩,
    ⟨"l.jal", "N", "00 0x1  NNNNN NNNNN NNNN NNNN NNNN NNNN", "l_jal"⟩,
    ⟨"l.bnf", "N", "00 0x3  NNNNN NNNNN NNNN NNNN NNNN NNNN", "l_bnf"⟩,
    ⟨"l.bf", "N", "00 0x4  NNNNN NNNNN NNNN NNNN NNNN NNNN", "l_bf"⟩,
    ⟨"l.nop", "K", "00 0x5  01--- ----- KKKK KKKK KKKK KKKK", "l_nop"⟩,
    ⟨"l.movhi", "rD,K", "00 0x6  DDDDD ----0 KKKK KKKK KKKK KKKK", "l_movhi"⟩,
    ⟨"l.macrc", "rD", "00 0x6  DDDDD ----1 0000 0000 0000 0000", "l_macrc"⟩,
    ⟨"l.sys", "K", "00 0x8  00000 00000 KKKK KKKK KKKK KKKK", "l_sys"⟩,
    ⟨"l.trap", "K", "00 0x8  01000 00000 KKKK KKKK KKKK KKKK", "l_trap"⟩,
    ⟨"l.msync", "", "00 0x8  10000 00000 0000 0000 0000 0000", "l_none"⟩,
    ⟨"l.psync", "", "00 0x8  10100 00000 0000 0000 0000 0000", "l_none"⟩,
    ⟨"l.csync", "", "00 0x8  11000 00000 0000 0000 0000 0000", "l_none"⟩,
    ⟨"l.rfe", "", "00 0x9  ----- ----- ---- ---- ---- ----", "l_rfe"⟩,
    ⟨"lv.all_eq.b", "rD,rA,rB", "00 0xA  DDDDD AAAAA BBBB B--- 0x1 0x0", "l_invalid"⟩,
    ⟨"lv.all_eq.h", "rD,rA,rB", "00 0xA  DDDDD AAAAA BBBB B--- 0x1 0x1", "l_invalid"⟩,
    ⟨"lv.all_ge.b", "rD,rA,rB", "00 0xA  DDDDD AAAAA BBBB B--- 0x1 0x2", "l_invalid"⟩,
    ⟨"lv.all_ge.h", "rD,rA,rB", "00 0xA  DDDDD AAAAA BBBB B--- 0x1 0x3", "l_invalid"⟩,
    ⟨"lv.all_gt.b", "rD,rA,rB", "00 0xA  DDDDD AAAAA BBBB B--- 0x1 0x4", "l_invalid"⟩,
    ⟨"lv.all_gt.h", "rD,rA,rB", "00 0xA  DDDDD AAAAA BBBB B--- 0x1 0x5", "l_invalid"⟩,
    ⟨"lv.all_le.b", "rD,rA,rB", "00 0xA  DDDDD AAAAA BBBB B--- 0x1 0x6", "l_invalid"⟩,
    ⟨"lv.all_le.h", "rD,rA,rB", "00 0xA  DDDDD AAAAA BBBB B--- 0x1 0x7", "l_invalid"⟩,
    ⟨"lv.all_lt.b", "rD,rA,rB", "00 0xA  DDDDD AAAAA BBBB B--- 0x1 0x8", "l_invalid"⟩,
    ⟨"lv.all_lt.h", "rD,rA,rB", "00 0xA  DDDDD AAAAA BBBB B--- 0x1 0x9", "l_invalid"⟩,
    ⟨"lv.all_ne.b", "rD,rA,rB", "00 0xA  DDDDD AAAAA BBBB B--- 0x1 0xA", "l_invalid"⟩,
    ⟨"lv.all_ne.h", "rD,rA,rB", "00 0xA  DDDDD AAAAA BBBB B--- 0x1 0xB", "l_invalid"⟩,
    ⟨"lv.any_eq.b", "rD,rA,rB", "00 0xA  DDDDD AAAAA BBBB B--- 0x2 0x0", "l_invalid"⟩,
    ⟨"lv.any_eq.h", "rD,rA,rB", "00 0xA  DDDDD AAAAA BBBB B--- 0x2 0x1", "l_invalid"⟩,
    ⟨"lv.any_ge.b", "rD,rA,rB", "00 0xA  DDDDD AAAAA BBBB B--- 0x2 0x2", "l_invalid"⟩,
    ⟨"lv.any_ge.h", "rD,rA,rB", "00 0xA  DDDDD AAAAA BBBB B--- 0x2 0x3", "l_invalid"⟩,
    ⟨"lv.any_gt.b", "rD,rA,rB", "00 0xA  DDDDD AAAAA BBBB B--- 0x2 0x4", "l_invalid"⟩,
    ⟨"lv.any_gt.h", "rD,rA,rB", "00 0xA  DDDDD AAAAA BBBB B--- 0x2 0x5", "l_invalid"⟩,
    ⟨"lv.any_le.b", "rD,rA,rB", "00 0xA  DDDDD AAAAA BBBB B--- 0x2 0x6", "l_invalid"⟩,
    ⟨"lv.any_le.h", "rD,rA,rB", "00 0xA  DDDDD AAAAA BBBB B--- 0x2 0x7", "l_invalid"⟩,
    ⟨"lv.any_lt.b", "rD,rA,rB", "00 0xA  DDDDD AAAAA BBBB B--- 0x2 0x8", "l_invalid"⟩,
    ⟨"lv.any_lt.h", "rD,rA,rB", "00 0xA  DDDDD AAAAA BBBB B--- 0x2 0x9", "l_invalid"⟩,
    ⟨"lv.any_ne.b", "rD,rA,rB", "00 0xA  DDDDD AAAAA BBBB B--- 0x2 0xA", "l_invalid"⟩,
    ⟨"lv.any_ne.h", "rD,rA,rB", "00 0xA  DDDDD AAAAA BBBB B--- 0x2 0xB", "l_invalid"⟩,
    ⟨"lv.add.b", "rD,rA,rB", "00 0xA  DDDDD AAAAA BBBB B--- 0x3 0x0", "l_invalid"⟩,
    ⟨"lv.add.h", "rD,rA,rB", "00 0xA  DDDDD AAAAA BBBB B--- 0x3 0x1", "l_invalid"⟩,
    ⟨"lv.adds.b", "rD,rA,rB", "00 0xA  DDDDD AAAAA BBBB B--- 0x3 0x2", "l_invalid"⟩,
    ⟨"lv.adds.h", "rD,rA,rB", "00 0xA  DDDDD AAAAA BBBB B--- 0x3 0x3", "l_invalid"⟩,
    ⟨"lv.addu.b", "rD,rA,rB", "00 0xA  DDDDD AAAAA BBBB B--- 0x3 0x4", "l_invalid"⟩,
    ⟨"lv.addu.h", "rD,rA,rB", "00 0xA  DDDDD AAAAA BBBB B--- 0x3 0x5", "l_invalid"⟩,
    ⟨"lv.addus.b", "rD,rA,rB", "00 0xA  DDDDD AAAAA BBBB B--- 0x3 0x6", "l_invalid"⟩,
    ⟨"lv.addus.h", "rD,rA,rB", "00 0xA  DDDDD AAAAA BBBB B--- 0x3 0x7", "l_invalid"⟩,
    ⟨"lv.and", "rD,rA,rB", "00 0xA  DDDDD AAAAA BBBB B--- 0x3 0x8", "l_invalid"⟩,
    ⟨"lv.avg.b", "rD,rA,rB", "00 0xA  DDDDD AAAAA BBBB B--- 0x3 0x9", "l_invalid"⟩,
    ⟨"lv.avg.h", "rD,rA,rB", "00 0xA  DDDDD AAAAA BBBB B--- 0x3 0xA", "l_invalid"⟩,
    ⟨"lv.cmp_eq.b", "rD,rA,rB", "00 0xA  DDDDD AAAAA BBBB B--- 0x4 0x0", "l_invalid"⟩,
    ⟨"lv.cmp_eq.h", "rD,rA,rB", "00 0xA  DDDDD AAAAA BBBB B--- 0x4 0x1", "l_invalid"⟩,
    ⟨"lv.cmp_ge.b", "rD,rA,rB", "00 0xA  DDDDD AAAAA BBBB B--- 0x4 0x2", "l_invalid"⟩,
    ⟨"lv.cmp_ge.h", "rD,rA,rB", "00 0xA  DDDDD AAAAA BBBB B--- 0x4 0x3", "l_invalid"⟩,
    ⟨"lv.cmp_gt.b", "rD,rA,rB", "00 0xA  DDDDD AAAAA BBBB B--- 0x4 0x4", "l_invalid"⟩,
    ⟨"lv.cmp_gt.h", "rD,rA,rB", "00 0xA  DDDDD AAAAA BBBB B--- 0x4 0x5", "l_invalid"⟩,
    ⟨"lv.cmp_le.b", "rD,rA,rB", "00 0xA  DDDDD AAAAA BBBB B--- 0x4 0x6", "l_invalid"⟩,
    ⟨"lv.cmp_le.h", "rD,rA,rB", "00 0xA  DDDDD AAAAA BBBB B--- 0x4 0x7", "l_invalid"⟩,
    ⟨"lv.cmp_lt.b", "rD,rA,rB", "00 0xA  DDDDD AAAAA BBBB B--- 0x4 0x8", "l_invalid"⟩,
    ⟨"lv.cmp_lt.h", "rD,rA,rB", "00 0xA  DDDDD AAAAA BBBB B--- 0x4 0x9", "l_invalid"⟩,
    ⟨"lv.cmp_ne.b", "rD,rA,rB", "00 0xA  DDDDD AAAAA BBBB B--- 0x4 0xA", "l_invalid"⟩,
    ⟨"lv.cmp_ne.h", "rD,rA,rB", "00 0xA  DDDDD AAAAA BBBB B--- 0x4 0xB", "l_invalid"⟩,
    ⟨"lv.madds.h", "rD,rA,rB", "00 0xA  DDDDD AAAAA BBBB B--- 0x5 0x4", "l_invalid"⟩,
    ⟨"lv.max.b", "rD,rA,rB", "00 0xA  DDDDD AAAAA BBBB B--- 0x5 0x5", "l_invalid"⟩,
    ⟨"lv.max.h", "rD,rA,rB", "00 0xA  DDDDD AAAAA BBBB B--- 0x5 0x6", "l_invalid"⟩,
    ⟨"lv.merge.b", "rD,rA,rB", "00 0xA  DDDDD AAAAA BBBB B--- 0x5 0x7", "l_invalid"⟩,
    ⟨"lv.merge.h", "rD,rA,rB", "00 0xA  DDDDD AAAAA BBBB B--- 0x5 0x8", "l_invalid"⟩,
    ⟨"lv.min.b", "rD,rA,rB", "00 0xA  DDDDD AAAAA BBBB B--- 0x5 0x9", "l_invalid"⟩,
    ⟨"lv.min.h", "rD,rA,rB", "00 0xA  DDDDD AAAAA BBBB B--- 0x5 0xA", "l_invalid"⟩,
    ⟨"lv.msubs.h", "rD,rA,rB", "00 0xA  DDDDD AAAAA BBBB B--- 0x5 0xB", "l_invalid"⟩,
    ⟨"lv.muls.h", "rD,rA,rB", "00 0xA  DDDDD AAAAA BBBB B--- 0x5 0xC", "l_invalid"⟩,
    ⟨"lv.nand", "rD,rA,rB", "00 0xA  DDDDD AAAAA BBBB B--- 0x5 0xD", "l_invalid"⟩,
    ⟨"lv.nor", "rD,rA,rB", "00 0xA  DDDDD AAAAA BBBB B--- 0x5 0xE", "l_invalid"⟩,
    ⟨"lv.or", "rD,rA,rB", "00 0xA  DDDDD AAAAA BBBB B--- 0x5 0xF", "l_invalid"⟩,
    ⟨"lv.pack.b", "rD,rA,rB", "00 0xA  DDDDD AAAAA BBBB B--- 0x6 0x0", "l_invalid"⟩,
    ⟨"lv.pack.h", "rD,rA,rB", "00 0xA  DDDDD AAAAA BBBB B--- 0x6 0x1", "l_invalid"⟩,
    ⟨"lv.packs.b", "rD,rA,rB", "00 0xA  DDDDD AAAAA BBBB B--- 0x6 0x2", "l_invalid"⟩,
    ⟨"lv.packs.h", "rD,rA,rB", "00 0xA  DDDDD AAAAA BBBB B--- 0x6 0x3", "l_invalid"⟩,
    ⟨"lv.packus.b", "rD,rA,rB", "00 0xA  DDDDD AAAAA BBBB B--- 0x6 0x4", "l_invalid"⟩,
    ⟨"lv.packus.h", "rD,rA,rB", "00 0xA  DDDDD AAAAA BBBB B--- 0x6 0x5", "l_invalid"⟩,
    ⟨"lv.perm.n", "rD,rA,rB", "00 0xA  DDDDD AAAAA BBBB B--- 0x6 0x6", "l_invalid"⟩,
    ⟨"lv.rl.b", "rD,rA,rB", "00 0xA  DDDDD AAAAA BBBB B--- 0x6 0x7", "l_invalid"⟩,
    ⟨"lv.rl.h", "rD,rA,rB", "00 0xA  DDDDD AAAAA BBBB B--- 0x6 0x8", "l_invalid"⟩,
    ⟨"lv.sll.b", "rD,rA,rB", "00 0xA  DDDDD AAAAA BBBB B--- 0x6 0x9", "l_invalid"⟩,
    ⟨"lv.sll.h", "rD,rA,rB", "00 0xA  DDDDD AAAAA BBBB B--- 0x6 0xA", "l_invalid"⟩,
    ⟨"lv.sll", "rD,rA,rB", "00 0xA  DDDDD AAAAA BBBB B--- 0x6 0xB", "l_invalid"⟩,
    ⟨"lv.srl.b", "rD,rA,rB", "00 0xA  DDDDD AAAAA BBBB B--- 0x6 0xC", "l_invalid"⟩,
    ⟨"lv.srl.h", "rD,rA,rB", "00 0xA  DDDDD AAAAA BBBB B--- 0x6 0xD", "l_invalid"⟩,
    ⟨"lv.sra.b", "rD,rA,rB", "00 0xA  DDDDD AAAAA BBBB B--- 0x6 0xE", "l_invalid"⟩,
    ⟨"lv.sra.h", "rD,rA,rB", "00 0xA  DDDDD AAAAA BBBB B--- 0x6 0xF", "l_invalid"⟩,
    ⟨"lv.srl", "rD,rA,rB", "00 0xA  DDDDD AAAAA BBBB B--- 0x7 0x0", "l_invalid"⟩,
    ⟨"lv.sub.b", "rD,rA,rB", "00 0xA  DDDDD AAAAA BBBB B--- 0x7 0x1", "l_invalid"⟩,
    ⟨"lv.sub.h", "rD,rA,rB", "00 0xA  DDDDD AAAAA BBBB B--- 0x7 0x2", "l_invalid"⟩,
    ⟨"lv.subs.b", "rD,rA,rB", "00 0xA  DDDDD AAAAA BBBB B--- 0x7 0x3", "l_invalid"⟩,
    ⟨"lv.subs.h", "rD,rA,rB", "00 0xA  DDDDD AAAAA BBBB B--- 0x7 0x4", "l_invalid"⟩,
    ⟨"lv.subu.b", "rD,rA,rB", "00 0xA  DDDDD AAAAA BBBB B--- 0x7 0x5", "l_invalid"⟩,
    ⟨"lv.subu.h", "rD,rA,rB", "00 0xA  DDDDD AAAAA BBBB B--- 0x7 0x6", "l_invalid"⟩,
    ⟨"lv.subus.b", "rD,rA,rB", "00 0xA  DDDDD AAAAA BBBB B--- 0x7 0x7", "l_invalid"⟩,
    ⟨"lv.subus.h", "rD,rA,rB", "00 0xA  DDDDD AAAAA BBBB B--- 0x7 0x8", "l_invalid"⟩,
    ⟨"lv.unpack.b", "rD,rA,rB", "00 0xA  DDDDD AAAAA BBBB B--- 0x7 0x9", "l_invalid"⟩,
    ⟨"lv.unpack.h", "rD,rA,rB", "00 0xA  DDDDD AAAAA BBBB B--- 0x7 0xA", "l_invalid"⟩,
    ⟨"lv.xor", "rD,rA,rB", "00 0xA  DDDDD AAAAA BBBB B--- 0x7 0xB", "l_invalid"⟩,
    ⟨"lv.cust1", "", "00 0xA  ----- ----- ---- ---- 0xC ----", "l_invalid"⟩,
    ⟨"lv.cust2", "", "00 0xA  ----- ----- ---- ---- 0xD ----", "l_invalid"⟩,
    ⟨"lv.cust3", "", "00 0xA  ----- ----- ---- ---- 0xE ----", "l_invalid"⟩,
    ⟨"lv.cust4", "", "00 0xA  ----- ----- ---- ---- 0xF ----", "l_invalid"⟩,
    ⟨"l.jr", "rB", "01 0x1  ----- ----- BBBB B--- ---- ----", "l_jr"⟩,
    ⟨"l.jalr", "rB", "01 0x2  ----- ----- BBBB B--- ---- ----", "l_jalr"⟩,
    ⟨"l.maci", "rA,I", "01 0x3  ----- AAAAA IIII IIII IIII IIII", "l_mac"⟩,
    ⟨"l.lwa", "rD,I(rA)", "01 0xB  DDDDD AAAAA IIII IIII IIII IIII", "l_lwa"⟩,
    ⟨"l.cust1", "", "01 0xC  ----- ----- ---- ---- ---- ----", "l_cust1"⟩,
    ⟨"l.cust2", "", "01 0xD  ----- ----- ---- ---- ---- ----", "l_cust2"⟩,
    ⟨"l.cust3", "", "01 0xE  ----- ----- ---- ---- ---- ----", "l_cust3"⟩,
    ⟨"l.cust4", "", "01 0xF  ----- ----- ---- ---- ---- ----", "l_cust4"⟩,
    ⟨"l.ld", "rD,I(rA)", "10 0x0  DDDDD AAAAA IIII IIII IIII IIII", "l_invalid"⟩,
    ⟨"l.lwz", "rD,I(rA)", "10 0x1  DDDDD AAAAA IIII IIII IIII IIII", "l_lwz"⟩,
    ⟨"l.lws", "rD,I(rA)", "10 0x2  DDDDD AAAAA IIII IIII IIII IIII", "l_lws"⟩,
    ⟨"l.lbz", "rD,I(rA)", "10 0x3  DDDDD AAAAA IIII IIII IIII IIII", "l_lbz"⟩,
    ⟨"l.lbs", "rD,I(rA)", "10 0x4  DDDDD AAAAA IIII IIII IIII IIII", "l_lbs"⟩,
    ⟨"l.lhz", "rD,I(rA)", "10 0x5  DDDDD AAAAA IIII IIII IIII IIII", "l_lhz"⟩,
    ⟨"l.lhs", "rD,I(rA)", "10 0x6  DDDDD AAAAA IIII IIII IIII IIII", "l_lhs"⟩,
    ⟨"l.addi", "rD,rA,I", "10 0x7  DDDDD AAAAA IIII IIII IIII IIII", "l_add"⟩,
    ⟨"l.addic", "rD,rA,I", "10 0x8  DDDDD AAAAA IIII IIII IIII IIII", "l_addc"⟩,
    ⟨"l.andi", "rD,rA,K", "10 0x9  DDDDD AAAAA KKKK KKKK KKKK KKKK", "l_and"⟩,
    ⟨"l.ori", "rD,rA,K", "10 0xA  DDDDD AAAAA KKKK KKKK KKKK KKKK", "l_or"⟩,
    ⟨"l.xori", if unsignedXori then "rD,rA,K" else "rD,rA,I",
      if unsignedXori then "10 0xB  DDDDD AAAAA KKKK KKKK KKKK KKKK" else "10 0xB  DDDDD AAAAA IIII IIII IIII IIII", "l_xor"⟩,
    ⟨"l.muli", "rD,rA,I", "10 0xC  DDDDD AAAAA IIII IIII IIII IIII", "l_mul"⟩,
    ⟨"l.mfspr", "rD,rA,K", "10 0xD  DDDDD AAAAA KKKK KKKK KKKK KKKK", "l_mfspr"⟩,
    ⟨"l.slli", "rD,rA,L", "10 0xE  DDDDD AAAAA ---- ---- 00LL LLLL", "l_sll"⟩,
    ⟨"l.srli", "rD,rA,L", "10 0xE  DDDDD AAAAA ---- ---- 01LL LLLL", "l_srl"⟩,
    ⟨"l.srai", "rD,rA,L", "10 0xE  DDDDD AAAAA ---- ---- 10LL LLLL", "l_sra"⟩,
    ⟨"l.rori", "rD,rA,L", "10 0xE  DDDDD AAAAA ---- ---- 11LL LLLL", "l_ror"⟩,
    ⟨"l.sfeqi", "rA,I", "10 0xF  00000 AAAAA IIII IIII IIII IIII", "l_sfeq"⟩,
    ⟨"l.sfnei", "rA,I", "10 0xF  00001 AAAAA IIII IIII IIII IIII", "l_sfne"⟩,
    ⟨"l.sfgtui", "rA,I", "10 0xF  00010 AAAAA IIII IIII IIII IIII", "l_sfgtu"⟩,
    ⟨"l.sfgeui", "rA,I", "10 0xF  00011 AAAAA IIII IIII IIII IIII", "l_sfgeu"⟩,
    ⟨"l.sfltui", "rA,I", "10 0xF  00100 AAAAA IIII IIII IIII IIII", "l_sfltu"⟩,
    ⟨"l.sfleui", "rA,I", "10 0xF  00101 AAAAA IIII IIII IIII IIII", "l_sfleu"⟩,
    ⟨"l.sfgtsi", "rA,I", "10 0xF  01010 AAAAA IIII IIII IIII IIII", "l_sfgts"⟩,
    ⟨"l.sfgesi", "rA,I", "10 0xF  01011 AAAAA IIII IIII IIII IIII", "l_sfges"⟩,
    ⟨"l.sfltsi", "rA,I", "10 0xF  01100 AAAAA IIII IIII IIII IIII", "l_sflts"⟩,
    ⟨"l.sflesi", "rA,I", "10 0xF  01101 AAAAA IIII IIII IIII IIII", "l_sfles"⟩,
    ⟨"l.mtspr", "rA,rB,K", "11 0x0  KKKKK AAAAA BBBB BKKK KKKK KKKK", "l_mtspr"⟩,
    ⟨"l.mac", "rA,rB", "11 0x1  ----- AAAAA BBBB B--- ---- 0x1", "l_mac"⟩,
    ⟨"l.msb", "rA,rB", "11 0x1  ----- AAAAA BBBB B--- ---- 0x2", "l_msb"⟩,
    ⟨"lf.add.s", "rD,rA,rB", "11 0x2  DDDDD AAAAA BBBB B--- 0x0 0x0", "lf_add_s"⟩,
    ⟨"lf.sub.s", "rD,rA,rB", "11 0x2  DDDDD AAAAA BBBB B--- 0x0 0x1", "lf_sub_s"⟩,
    ⟨"lf.mul.s", "rD,rA,rB", "11 0x2  DDDDD AAAAA BBBB B--- 0x0 0x2", "lf_mul_s"⟩,
    ⟨"lf.div.s", "rD,rA,rB", "11 0x2  DDDDD AAAAA BBBB B--- 0x0 0x3", "lf_div_s"⟩,
    ⟨"lf.itof.s", "rD,rA", "11 0x2  DDDDD AAAAA 0000 0--- 0x0 0x4", "lf_itof_s"⟩,
    ⟨"lf.ftoi.s", "rD,rA", "11 0x2  DDDDD AAAAA 0000 0--- 0x0 0x5", "lf_ftoi_s"⟩,
    ⟨"lf.rem.s", "rD,rA,rB", "11 0x2  DDDDD AAAAA BBBB B--- 0x0 0x6", "lf_rem_s"⟩,
    ⟨"lf.madd.s", "rD,rA,rB", "11 0x2  DDDDD AAAAA BBBB B--- 0x0 0x7", "lf_madd_s"⟩,
    ⟨"lf.sfeq.s", "rA,rB", "11 0x2  ----- AAAAA BBBB B--- 0x0 0x8", "lf_sfeq_s"⟩,
    ⟨"lf.sfne.s", "rA,rB", "11 0x2  ----- AAAAA BBBB B--- 0x0 0x9", "lf_sfne_s"⟩,
    ⟨"lf.sfgt.s", "rA,rB", "11 0x2  ----- AAAAA BBBB B--- 0x0 0xA", "lf_sfgt_s"⟩,
    ⟨"lf.sfge.s", "rA,rB", "11 0x2  ----- AAAAA BBBB B--- 0x0 0xB", "lf_sfge_s"⟩,
    ⟨"lf.sflt.s", "rA,rB", "11 0x2  ----- AAAAA BBBB B--- 0x0 0xC", "lf_sflt_s"⟩,
    ⟨"lf.sfle.s", "rA,rB", "11 0x2  ----- AAAAA BBBB B--- 0x0 0xD", "lf_sfle_s"⟩,
    ⟨"lf.cust1.s", "rA,rB", "11 0x2  ----- AAAAA BBBB B--- 0xD ----", "l_invalid"⟩,
    ⟨"lf.add.d", "rD,rA,rB", "11 0x2  DDDDD AAAAA BBBB B--- 0x1 0x0", "l_invalid"⟩,
    ⟨"lf.sub.d", "rD,rA,rB", "11 0x2  DDDDD AAAAA BBBB B--- 0x1 0x1", "l_invalid"⟩,
    ⟨"lf.mul.d", "rD,rA,rB", "11 0x2  DDDDD AAAAA BBBB B--- 0x1 0x2", "l_invalid"⟩,
    ⟨"lf.div.d", "rD,rA,rB", "11 0x2  DDDDD AAAAA BBBB B--- 0x1 0x3", "l_invalid"⟩,
    ⟨"lf.itof.d", "rD,rA", "11 0x2  DDDDD AAAAA 0000 0--- 0x1 0x4", "l_invalid"⟩,
    ⟨"lf.ftoi.d", "rD,rA", "11 0x2  DDDDD AAAAA 0000 0--- 0x1 0x5", "l_invalid"⟩,
    ⟨"lf.rem.d", "rD,rA,rB", "11 0x2  DDDDD AAAAA BBBB B--- 0x1 0x6", "l_invalid"⟩,
    ⟨"lf.madd.d", "rD,rA,rB", "11 0x2  DDDDD AAAAA BBBB B--- 0x1 0x7", "l_invalid"⟩,
    ⟨"lf.sfeq.d", "rA,rB", "11 0x2  ----- AAAAA BBBB B--- 0x1 0x8", "l_invalid"⟩,
    ⟨"lf.sfne.d", "rA,rB", "11 0x2  ----- AAAAA BBBB B--- 0x1 0x9", "l_invalid"⟩,
    ⟨"lf.sfgt.d", "rA,rB", "11 0x2  ----- AAAAA BBBB B--- 0x1 0xA", "l_invalid"⟩,
    ⟨"lf.sfge.d", "rA,rB", "11 0x2  ----- AAAAA BBBB B--- 0x1 0xB", "l_invalid"⟩,
    ⟨"lf.sflt.d", "rA,rB", "11 0x2  ----- AAAAA BBBB B--- 0x1 0xC", "l_invalid"⟩,
    ⟨"lf.sfle.d", "rA,rB", "11 0x2  ----- AAAAA BBBB B--- 0x1 0xD", "l_invalid"⟩,
    ⟨"lf.cust1.d", "rA,rB", "11 0x2  ----- AAAAA BBBB B--- 0xE ----", "l_invalid"⟩,
    ⟨"l.swa", "I(rA),rB", "11 0x3  IIIII AAAAA BBBB BIII IIII IIII", "l_swa"⟩,
    ⟨"l.sd", "I(rA),rB", "11 0x4  IIIII AAAAA BBBB BIII IIII IIII", "l_invalid"⟩,
    ⟨"l.sw", "I(rA),rB", "11 0x5  IIIII AAAAA BBBB BIII IIII IIII", "l_sw"⟩,
    ⟨"l.sb", "I(rA),rB", "11 0x6  IIIII AAAAA BBBB BIII IIII IIII", "l_sb"⟩,
    ⟨"l.sh", "I(rA),rB", "11 0x7  IIIII AAAAA BBBB BIII IIII IIII", "l_sh"⟩,
    ⟨"l.add", "rD,rA,rB", "11 0x8  DDDDD AAAAA BBBB B-00 ---- 0x0", "l_add"⟩,
    ⟨"l.addc", "rD,rA,rB", "11 0x8  DDDDD AAAAA BBBB B-00 ---- 0x1", "l_addc"⟩,
    ⟨"l.sub", "rD,rA,rB", "11 0x8  DDDDD AAAAA BBBB B-00 ---- 0x2", "l_sub"⟩,
    ⟨"l.and", "rD,rA,rB", "11 0x8  DDDDD AAAAA BBBB B-00 ---- 0x3", "l_and"⟩,
    ⟨"l.or", "rD,rA,rB", "11 0x8  DDDDD AAAAA BBBB B-00 ---- 0x4", "l_or"⟩,
    ⟨"l.xor", "rD,rA,rB", "11 0x8  DDDDD AAAAA BBBB B-00 ---- 0x5", "l_xor"⟩,
    ⟨"l.mul", "rD,rA,rB", "11 0x8  DDDDD AAAAA BBBB B-11 ---- 0x6", "l_mul"⟩,
    ⟨"l.sll", "rD,rA,rB", "11 0x8  DDDDD AAAAA BBBB B-00 00-- 0x8", "l_sll"⟩,
    ⟨"l.srl", "rD,rA,rB", "11 0x8  DDDDD AAAAA BBBB B-00 01-- 0x8", "l_srl"⟩,
    ⟨"l.sra", "rD,rA,rB", "11 0x8  DDDDD AAAAA BBBB B-00 10-- 0x8", "l_sra"⟩,
    ⟨"l.ror", "rD,rA,rB", "11 0x8  DDDDD AAAAA BBBB B-00 11-- 0x8", "l_ror"⟩,
    ⟨"l.div", "rD,rA,rB", "11 0x8  DDDDD AAAAA BBBB B-11 ---- 0x9", "l_div"⟩,
    ⟨"l.divu", "rD,rA,rB", "11 0x8  DDDDD AAAAA BBBB B-11 ---- 0xA", "l_divu"⟩,
    ⟨"l.mulu", "rD,rA,rB", "11 0x8  DDDDD AAAAA BBBB B-11 ---- 0xB", "l_mulu"⟩,
    ⟨"l.extbs", "rD,rA", "11 0x8  DDDDD AAAAA ---- --00 01-- 0xC", "l_extbs"⟩,
    ⟨"l.exths", "rD,rA", "11 0x8  DDDDD AAAAA ---- --00 00-- 0xC", "l_exths"⟩,
    ⟨"l.extws", "rD,rA", "11 0x8  DDDDD AAAAA ---- --00 00-- 0xD", "l_extws"⟩,
    ⟨"l.extbz", "rD,rA", "11 0x8  DDDDD AAAAA ---- --00 11-- 0xC", "l_extbz"⟩,
    ⟨"l.exthz", "rD,rA", "11 0x8  DDDDD AAAAA ---- --00 10-- 0xC", "l_exthz"⟩,
    ⟨"l.extwz", "rD,rA", "11 0x8  DDDDD AAAAA ---- --00 01-- 0xD", "l_extwz"⟩,
    ⟨"l.cmov", "rD,rA,rB", "11 0x8  DDDDD AAAAA BBBB B-00 ---- 0xE", "l_cmov"⟩,
    ⟨"l.ff1", "rD,rA", "11 0x8  DDDDD AAAAA ---- --00 ---- 0xF", "l_ff1"⟩,
    ⟨"l.fl1", "rD,rA", "11 0x8  DDDDD AAAAA ---- --01 ---- 0xF", "l_fl1"⟩,
    ⟨"l.sfeq", "rA,rB", "11 0x9  00000 AAAAA BBBB B--- ---- ----", "l_sfeq"⟩,
    ⟨"l.sfne", "rA,rB", "11 0x9  00001 AAAAA BBBB B--- ---- ----", "l_sfne"⟩,
    ⟨"l.sfgtu", "rA,rB", "11 0x9  00010 AAAAA BBBB B--- ---- ----", "l_sfgtu"⟩,
    ⟨"l.sfgeu", "rA,rB", "11 0x9  00011 AAAAA BBBB B--- ---- ----", "l_sfgeu"⟩,
    ⟨"l.sfltu", "rA,rB", "11 0x9  00100 AAAAA BBBB B--- ---- ----", "l_sfltu"⟩,
    ⟨"l.sfleu", "rA,rB", "11 0x9  00101 AAAAA BBBB B--- ---- ----", "l_sfleu"⟩,
    ⟨"l.sfgts", "rA,rB", "11 0x9  01010 AAAAA BBBB B--- ---- ----", "l_sfgts"⟩,
    ⟨"l.sfges", "rA,rB", "11 0x9  01011 AAAAA BBBB B--- ---- ----", "l_sfges"⟩,
    ⟨"l.sflts", "rA,rB", "11 0x9  01100 AAAAA BBBB B--- ---- ----", "l_sflts"⟩,
    ⟨"l.sfles", "rA,rB", "11 0x9  01101 AAAAA BBBB B--- ---- ----", "l_sfles"⟩,
    ⟨"l.cust5", "rD,rA,rB,L,K", "11 0xC  DDDDD AAAAA BBBB BLLL LLLK KKKK", "l_invalid"⟩,
    ⟨"l.cust6", "", "11 0xD  ----- ----- ---- ---- ---- ----", "l_invalid"⟩,
    ⟨"l.cust7", "", "11 0xE  ----- ----- ---- ---- ---- ----", "l_invalid"⟩,
    ⟨"l.cust8", "", "11 0xF  ----- ----- ---- ---- ---- ----", "l_invalid"⟩ ]

/-! ### Letters of an encoding -/

/-- The occurrences of a letter, the digits behind `0x` apart. -/
def letterCount (l : Char) : List Char → Nat
  | [] => 0
  | '0' :: 'x' :: [] => 0
  | '0' :: 'x' :: _ :: enc => letterCount l enc
  | c :: enc => (if c = l then 1 else 0) + letterCount l enc

/-- `letter_range`: the width of a letter in the first entry that has it, also as a digit. It ends the
program for a letter that no entry has. -/
def letterRange (opcodes : List Opcode) (l : Char) : Option Nat :=
  (opcodes.find? fun op => l ∈ op.encoding.toList).map fun op => letterCount l op.encoding.toList

/-- `or1ksim_extend_imm`. -/
def or1ksimExtendImm (opcodes : List Opcode) (imm : Word) (l : Char) : Option Word :=
  (letterRange opcodes l).map fun letterBits =>
    let mask : Word := (1 <<< letterBits) - 1
    let imm := imm &&& mask
    if letterSigned l && imm >>> (letterBits - 1) ≠ 0 then imm ||| ~~~mask else imm

/-- The first loop of `or1ksim_or32_extract`, with the two characters before the text. -/
def paramCount (paramCh : Char) : Option Char → Option Char → List Char → Nat
  | _, _, [] => 0
  | before, last, c :: enc =>
    (if c = paramCh ∧ ¬ (before = some '0' ∧ last = some 'x') then 1 else 0) + paramCount paramCh last (some c) enc

/-- The second loop of `or1ksim_or32_extract`. -/
def extractLoop (paramCh : Char) (insn : Word) : List Char → Nat → Nat → Word → Word
  | [], _, _, ret => ret
  | '0' :: 'x' :: [], _, _, ret => ret
  | '0' :: 'x' :: h :: enc, opcPos, paramPos, ret =>
    let tmp := BitVec.ofNat 32 (strtolHex (h :: enc))
    let nibble := if paramCh = '0' then 15 - tmp else if paramCh = '1' then tmp else 0
    extractLoop paramCh insn enc (opcPos - 4) paramPos (ret ||| nibble <<< (opcPos - 4))
  | c :: enc, opcPos, paramPos, ret =>
    if c = '0' ∨ c = '1' then
      extractLoop paramCh insn enc (opcPos - 1) paramPos (if paramCh = c then ret ||| 1 <<< (opcPos - 1) else ret)
    else if c = paramCh then
      let bit := ((insn >>> (opcPos - 1)) &&& 1) <<< (paramPos - 1)
      extractLoop paramCh insn enc (opcPos - 1) (paramPos - 1) (if paramCh.isLower then ret - bit else ret + bit)
    else if c.isAlpha ∨ c = '-' then extractLoop paramCh insn enc (opcPos - 1) paramPos ret
    else extractLoop paramCh insn enc opcPos paramPos ret

def or1ksimOr32Extract (paramCh : Char) (encoding : List Char) (insn : Word) : Word :=
  extractLoop paramCh insn encoding 32 (paramCount paramCh none none encoding) 0

/-! ### Operands of an entry -/

/-- An operand of an argument string: its letter, and whether an `r` makes it a register. -/
structure ArgOperand where
  isReg : Bool
  letter : Char
  deriving DecidableEq, Repr

/-- The operands in the order of the string. -/
def argOperands : List Char → List ArgOperand
  | [] => []
  | 'r' :: letter :: args => ⟨true, letter⟩ :: argOperands args
  | c :: args => if c.isAlpha then ⟨false, c⟩ :: argOperands args else argOperands args

/-- What the disassembler prints for an operand. -/
def Opcode.printedVal (opcodes : List Opcode) (op : Opcode) (operand : ArgOperand) (insn : Word) : Option Word :=
  let field := or1ksimOr32Extract operand.letter op.encoding.toList insn
  if operand.isReg then some field else or1ksimExtendImm opcodes field operand.letter

end Or1ksim.Decode
